import EplLang.Proofs.Number
import EplLang.Token.Lexer

/-!
# Spelling tokens

A text spells some tokens before another text: of the two together the lexer makes those
tokens, and then goes on with the other text. What comes after matters, since a word or a
number goes on as far as it can; `Spells` always has the actual text after it, and so two
spellings can be put together without a further condition.

There is one statement for each class of token that data is written with.

The first byte of a text tells which reader takes over. The cases of `step_cases` are the readers,
and whatever is said of a single step is shown reader by reader.
-/

set_option autoImplicit false

namespace EplLang

namespace Text

/-! ## Digits -/

theorem isDigit_of_digitChar {c : Char} (digit : c.isDigit = true) {b : UInt8}
    (member : b ∈ String.utf8EncodeChar c) : isDigit b = true := by
  have bounds : 48 ≤ c.val ∧ c.val ≤ 57 := by simpa [Char.isDigit] using digit
  have least : 48 ≤ c.val.toNat := UInt32.le_iff_toNat_le.mp bounds.1
  have most : c.val.toNat ≤ 57 := UInt32.le_iff_toNat_le.mp bounds.2
  rw [String.utf8EncodeChar, if_pos (by omega), List.mem_singleton] at member
  have value : b.toNat = c.val.toNat := by
    rw [member, UInt8.toNat_ofNat', Nat.mod_eq_of_lt (by omega)]
  simp only [isDigit, Bool.and_eq_true, decide_eq_true_eq, UInt8.le_iff_toNat_le]
  exact ⟨value ▸ least, value ▸ most⟩

theorem ofNat_eq_flatMap (n : Nat) :
    ofNat n = (Nat.toDigits 10 n).flatMap String.utf8EncodeChar := by
  have digits : Nat.repr n = String.ofList (Nat.toDigits 10 n) := Nat.toString_eq_ofList_toDigits
  unfold ofNat String.text
  rw [digits, String.toByteArray_ofList, List.utf8Encode]
  simp

/-- A run of digits. -/
structure Digits (t : Text) : Prop where
  some : t ≠ []
  all : ∀ b ∈ t, isDigit b = true

theorem digits_ofNat (n : Nat) : Digits (ofNat n) := by
  rw [ofNat_eq_flatMap]
  constructor
  · have some : Nat.toDigits 10 n ≠ [] := Nat.toDigits_ne_nil
    obtain ⟨c, others, digits⟩ := List.exists_cons_of_ne_nil some
    rw [digits, List.flatMap_cons]
    exact List.append_ne_nil_of_left_ne_nil String.utf8EncodeChar_ne_nil _
  · intro b member
    obtain ⟨c, digit, inside⟩ := List.mem_flatMap.mp member
    exact isDigit_of_digitChar (Nat.isDigit_of_mem_toDigits (by decide) (by decide) digit) inside

/-- Digits, or digits on both sides of a point. -/
inductive Numeral : Text → Prop where
  | whole {t : Text} : Digits t → Numeral t
  | point {t u : Text} : Digits t → Digits u → Numeral (t ++ byte '.' :: u)

theorem Digits.first {t : Text} (digits : Digits t) : ∃ b u, t = b :: u ∧ isDigit b = true := by
  obtain ⟨b, u, rfl⟩ := List.exists_cons_of_ne_nil digits.some
  exact ⟨b, u, rfl, digits.all b List.mem_cons_self⟩

theorem Numeral.first {t : Text} (shape : Numeral t) : ∃ b u, t = b :: u ∧ isDigit b = true := by
  cases shape with
  | whole digits => exact digits.first
  | point digits _ =>
      obtain ⟨b, u, rfl, digit⟩ := digits.first
      exact ⟨b, _, rfl, digit⟩

/-- A byte of a class is none that is not of the class. -/
theorem ne_of_class {p : UInt8 → Bool} {b other : UInt8} (inside : p b = true)
    (outside : p other = false) : b ≠ other := by
  rintro rfl
  rw [inside] at outside
  cases outside

theorem not_isDigit_of_opensName {b : UInt8} (opens : opensName b = true) : isDigit b = false := by
  have nine : (byte '9').toNat = 57 := rfl
  have capital : (byte 'A').toNat = 65 := rfl
  have small : (byte 'a').toNat = 97 := rfl
  have underscore : (byte '_').toNat = 95 := rfl
  simp only [opensName, isDigit, Bool.or_eq_true, Bool.and_eq_true, decide_eq_true_eq, beq_iff_eq,
    UInt8.le_iff_toNat_le, Bool.and_eq_false_iff, decide_eq_false_iff_not] at *
  rcases opens with ⟨⟨_, _⟩ | ⟨_, _⟩⟩ | rfl
  · omega
  · omega
  · omega

end Text

/-- The words that are no names. -/
def Token.reserved : List Text := "true" :: "false" :: "null" :: keywords

theorem Token.ofWord_of_free (line : Int) {name : Text} (free : name ∉ reserved) :
    ofWord line name = { kind := .identifier, line, text := name } := by
  simp only [reserved, List.mem_cons, not_or] at free
  obtain ⟨noTrue, noFalse, noNull, noKeyword⟩ := free
  simp [ofWord, noTrue, noFalse, noNull, noKeyword]

namespace Lexer

open Text (byte isDigit opensName insideName Digits Numeral)

/-- Of a text with another one after it the lexer makes some tokens and then goes on with
the other text. -/
def Spells (segment : Int → Text → Except Stop (List Token)) (line : Int) (text : Text)
    (tokens : List Token) (rest : Text) : Prop :=
  tokensFrom segment line (text ++ rest) = (tokensFrom segment line rest).map (tokens ++ ·)

/-- The line that is current after a token on a line. -/
def nextLine (line : Int) (t : Token) : Int := if t.kind = .newline then line + 1 else line

section Spelling

variable {segment : Int → Text → Except Stop (List Token)} {line : Int} {rest : Text}

theorem tokensFrom_cons {b : UInt8} {t : Text} {s : Step} (ran : step segment line b t = .ok s) :
    tokensFrom segment line (b :: t) = (tokensFrom segment s.line s.rest).map (s.tokens ++ ·) := by
  rw [tokensFrom]
  split
  · rename_i stop failed
    rw [ran] at failed
    cases failed
  · rename_i s' done
    rw [ran] at done
    cases done
    rfl

theorem isBlank_eq_false {p : UInt8 → Bool} {b : UInt8} (inside : p b = true)
    (space : p (byte ' ') = false) (tab : p (byte '\t') = false) (back : p 0x08 = false)
    (feed : p (byte '\r') = false) : isBlank b = false := by
  simp only [isBlank, Bool.or_eq_false_iff, beq_eq_false_iff_ne]
  exact ⟨⟨⟨Text.ne_of_class inside space, Text.ne_of_class inside tab⟩,
    Text.ne_of_class inside back⟩, Text.ne_of_class inside feed⟩

/-! ## The readers of a step -/

theorem step_blank {b : UInt8} {t : Text} (blank : isBlank b = true) :
    step segment line b t = .ok ⟨[], line, t⟩ := by
  rw [step, if_pos blank]

theorem step_digit {b : UInt8} {t : Text} (digit : isDigit b = true) :
    step segment line b t = number line (b :: t) := by
  have noBlank : isBlank b = false :=
    isBlank_eq_false digit (by decide) (by decide) (by decide) (by decide)
  have other {c : UInt8} (outside : isDigit c = false) : b ≠ c := Text.ne_of_class digit outside
  rw [step, if_neg (by simp [noBlank]), if_neg (other (by decide)), if_neg (other (by decide)),
    if_neg (other (by decide)), if_pos digit]

theorem step_word {b : UInt8} {t : Text} (opens : opensName b = true) :
    step segment line b t = .ok (word line (b :: t)) := by
  have noBlank : isBlank b = false :=
    isBlank_eq_false opens (by decide) (by decide) (by decide) (by decide)
  have noDigit : isDigit b = false := Text.not_isDigit_of_opensName opens
  have other {c : UInt8} (outside : opensName c = false) : b ≠ c := Text.ne_of_class opens outside
  rw [step, if_neg (by simp [noBlank]), if_neg (other (by decide)), if_neg (other (by decide)),
    if_neg (other (by decide)), if_neg (by simp [noDigit]), if_pos opens]

theorem step_slash {t : Text} : step segment line (byte '/') t =
    if t.head? = some (byte '/') then .ok ⟨[], line, skipLine t⟩
    else if t.head? = some (byte '*') then .ok (blockComment line t.tail)
    else .ok ⟨[{ kind := .divide, line }], line, t⟩ := rfl

theorem step_quote {t : Text} : step segment line (byte '"') t =
    (string segment line none t).map fun body => ⟨[body.token line], line, body.rest⟩ := rfl

theorem step_string {t : Text} {body : StringBody} (read : string segment line none t = .ok body) :
    step segment line (byte '"') t = .ok ⟨[body.token line], line, body.rest⟩ := by
  rw [step_quote, read]
  rfl

/-- Reads a mark other than a slash. -/
def punctuation (line : Int) (b : UInt8) (t : Text) : Except Stop Step :=
  match mark? b with
  | some kind => .ok ⟨[{ kind, line }], line, t⟩
  | none =>
    match pair? b with
    | some (single, double) =>
      if t.head? = some (byte '=') then .ok ⟨[{ kind := double, line }], line, t.tail⟩
      else .ok ⟨[{ kind := single, line }], line, t⟩
    | none => .error (unexpected line (Utf8.encodeChar (Char.ofNat b.toNat)))

/-- The first byte tells which reader a step is. -/
@[elab_as_elim]
theorem step_cases {motive : UInt8 → Prop} (b : UInt8)
    (blank : ∀ b, isBlank b = true → motive b) (newline : motive (byte '\n'))
    (slash : motive (byte '/')) (quote : motive (byte '"'))
    (digit : ∀ b, isDigit b = true → motive b) (word : ∀ b, opensName b = true → motive b)
    (mark : ∀ b, b ≠ byte '\n' →
      (∀ segment line t, step segment line b t = punctuation line b t) → motive b) :
    motive b := by
  by_cases isBlank : isBlank b = true
  · exact blank b isBlank
  by_cases isNewline : b = byte '\n'
  · exact isNewline ▸ newline
  by_cases isSlash : b = byte '/'
  · exact isSlash ▸ slash
  by_cases isQuote : b = byte '"'
  · exact isQuote ▸ quote
  by_cases isDigit : isDigit b = true
  · exact digit b isDigit
  by_cases opens : opensName b = true
  · exact word b opens
  refine mark b isNewline fun segment line t => ?_
  rw [step, if_neg isBlank, if_neg isNewline, if_neg isSlash, if_neg isQuote, if_neg isDigit,
    if_neg opens]
  rfl

/-! ## The tokens of a reader -/

theorem tokens_number {t : Text} {s : Step} (ran : number line t = .ok s) :
    ∃ x, s.tokens = [{ kind := .number x, line }] := by
  unfold number at ran
  split at ran
  · cases ran
  · split at ran
    · cases ran
    · cases ran
      exact ⟨_, rfl⟩

theorem mem_tokens_blockComment {t : Text} {token : Token}
    (member : token ∈ (blockComment line t).tokens) :
    ∃ line', token = { kind := .newline, line := line' } := by
  fun_induction blockComment line t with
  | case1 | case2 => cases member
  | case3 line t goesOn ih =>
      rcases List.mem_cons.mp member with rfl | later
      · exact ⟨line, rfl⟩
      · exact ih later
  | case4 line b t goesOn newline ih => exact ih member

theorem tokens_punctuation {b : UInt8} {t : Text} {s : Step} (ran : punctuation line b t = .ok s) :
    ∃ kind, s.tokens = [{ kind, line }] ∧ (mark? b = some kind ∨
      ∃ other, pair? b = some (kind, other) ∨ pair? b = some (other, kind)) := by
  unfold punctuation at ran
  split at ran
  case h_1 kind mark =>
    cases ran
    exact ⟨kind, rfl, .inl mark⟩
  case h_2 =>
    split at ran
    case h_2 => cases ran
    case h_1 single double pair =>
      split at ran
      · cases ran
        exact ⟨double, rfl, .inr ⟨single, .inr pair⟩⟩
      · cases ran
        exact ⟨single, rfl, .inr ⟨double, .inl pair⟩⟩

/-! ## Numerals and string bodies -/

theorem numeral_digits {seen : Bool} {t : Text} (digits : ∀ b ∈ t, isDigit b = true) :
    numeral seen (t ++ rest) = (numeral seen rest).map fun (word, left) => (t ++ word, left) := by
  induction t with
  | nil => simp
  | cons b t ih =>
      have digit := digits b List.mem_cons_self
      have noPoint : b ≠ byte '.' := Text.ne_of_class digit (by decide)
      rw [List.cons_append, numeral, if_neg noPoint, if_pos digit,
        ih fun b member => digits b (List.mem_cons_of_mem _ member)]
      cases numeral seen rest <;> rfl

/-- No digit and no point goes on with a number. -/
def EndsNumber (rest : Text) : Prop := ∀ b ∈ rest.head?, isDigit b = false ∧ b ≠ byte '.'

theorem numeral_ends {seen : Bool} (ends : EndsNumber rest) :
    numeral seen rest = some ([], rest) := by
  cases rest with
  | nil => rfl
  | cons b t =>
      obtain ⟨noDigit, noPoint⟩ := ends b rfl
      rw [numeral, if_neg noPoint, if_neg (by simp [noDigit])]

theorem numeral_numeral {t : Text} (shape : Numeral t) (ends : EndsNumber rest) :
    numeral false (t ++ rest) = some (t, rest) := by
  cases shape with
  | whole digits =>
      rw [numeral_digits digits.all, numeral_ends ends]
      simp
  | @point t u first second =>
      have point : numeral false (byte '.' :: (u ++ rest)) = some (byte '.' :: u, rest) := by
        rw [numeral, if_pos rfl, if_neg (by simp), numeral_digits second.all, numeral_ends ends]
        simp
      rw [List.append_assoc, List.cons_append, numeral_digits first.all, point]
      rfl

/-- Nothing goes on with a word or a number. -/
def EndsToken (rest : Text) : Prop := ∀ b ∈ rest.head?, insideName b = false ∧ b ≠ byte '.'

theorem EndsToken.number {rest : Text} (ends : EndsToken rest) : EndsNumber rest := by
  intro b first
  obtain ⟨outside, noPoint⟩ := ends b first
  simp only [insideName, Bool.or_eq_false_iff] at outside
  exact ⟨outside.2, noPoint⟩

theorem EndsToken.word {rest : Text} (ends : EndsToken rest) :
    ∀ b ∈ rest.head?, insideName b = false := fun b first => (ends b first).1

theorem getLast?_digits {t : Text} (digits : Digits t) : ∃ b, t.getLast? = some b ∧ isDigit b := by
  obtain ⟨b, last⟩ := Option.ne_none_iff_exists'.mp (mt List.getLast?_eq_none_iff.mp digits.some)
  exact ⟨b, last, digits.all b (List.mem_of_getLast? last)⟩

theorem dropPoint_numeral {t : Text} (shape : Numeral t) : dropPoint t = t := by
  have last : ∃ b, t.getLast? = some b ∧ isDigit b := by
    cases shape with
    | whole digits => exact getLast?_digits digits
    | @point t u _ digits =>
        obtain ⟨b, last, digit⟩ := getLast?_digits digits
        refine ⟨b, ?_, digit⟩
        rw [List.getLast?_append, List.getLast?_cons, last]
        rfl
  obtain ⟨b, last, digit⟩ := last
  have noPoint : b ≠ byte '.' := Text.ne_of_class digit (by decide)
  rw [dropPoint, last, if_neg (by simpa using noPoint)]

theorem string_quote {t : Text} : string segment line none (byte '"' :: t) = .ok ⟨[], [], t⟩ := by
  rw [string.eq_def]
  rfl

theorem string_plain {b : UInt8} {t : Text} (quote : b ≠ byte '"') (newline : b ≠ byte '\n')
    (escape : b ≠ byte '\\') (brace : b ≠ byte '{') :
    string segment line none (b :: t) = (string segment line none t).map (StringBody.push b) := by
  rw [string.eq_def]
  simp only [quote, newline, escape, brace, if_false]

theorem string_escape (c : UInt8) {t : Text} :
    string segment line none (byte '\\' :: c :: t) = (string segment line none t).map
      (StringBody.push (if c = byte 'n' then byte '\n' else c)) := by
  rw [string.eq_def]
  rfl

theorem string_open {t : Text} :
    string segment line none (byte '{' :: t) = string segment line (some []) t := by
  rw [string.eq_def]
  rfl

theorem string_inside {b : UInt8} {inside t : Text} (opening : b ≠ byte '{')
    (closing : b ≠ byte '}') :
    string segment line (some inside) (b :: t) = string segment line (some (b :: inside)) t := by
  rw [string.eq_def]
  simp only [opening, closing, if_false]

theorem string_close {inside t : Text} {tokens : List Token}
    (read : segment line inside.reverse = .ok tokens) :
    string segment line (some inside) (byte '}' :: t) =
      (string segment line none t).map (StringBody.pushPart tokens) := by
  rw [string.eq_def]
  dsimp only
  rw [if_neg (by decide), if_pos rfl, read]

/-- Bytes that stand for themselves in a string. -/
def Verbatim (t : Text) : Prop :=
  ∀ b ∈ t, b ≠ byte '"' ∧ b ≠ byte '\\' ∧ b ≠ byte '{' ∧ b ≠ byte '\n'

theorem string_verbatim {t : Text} (verbatim : Verbatim t) :
    string segment line none (t ++ byte '"' :: rest) = .ok ⟨t, [], rest⟩ := by
  induction t with
  | nil => exact string_quote
  | cons b t ih =>
      obtain ⟨⟨noQuote, noEscape, noBrace, noNewline⟩, others⟩ := List.forall_mem_cons.mp verbatim
      rw [List.cons_append, string_plain noQuote noNewline noEscape noBrace, ih others]
      rfl

/-! ## One token after another -/

namespace Spells

theorem nil : Spells segment line [] [] rest := by
  unfold Spells
  rw [List.nil_append]
  cases tokensFrom segment line rest <;> rfl

theorem append {text text' : Text} {tokens tokens' : List Token}
    (first : Spells segment line text tokens (text' ++ rest))
    (second : Spells segment line text' tokens' rest) :
    Spells segment line (text ++ text') (tokens ++ tokens') rest := by
  unfold Spells at *
  rw [List.append_assoc, first, second]
  cases tokensFrom segment line rest with
  | error e => rfl
  | ok others => simp [Except.map]

/-- What is read in one step. -/
theorem of_step {b : UInt8} {t : Text} {tokens : List Token}
    (ran : step segment line b (t ++ rest) = .ok ⟨tokens, line, rest⟩) :
    Spells segment line (b :: t) tokens rest := tokensFrom_cons ran

theorem blank : Spells segment line [byte ' '] [] rest := of_step (t := []) rfl

/-- A mark of one byte that starts no longer token. -/
theorem mark {b : UInt8} {kind : Kind}
    (alone : ∀ t, step segment line b t = .ok ⟨[{ kind, line }], line, t⟩) :
    Spells segment line [b] [{ kind, line }] rest := of_step (t := []) (alone rest)

theorem assign (single : rest.head? ≠ some (byte '=')) :
    Spells segment line [byte '='] [{ kind := .assign, line }] rest := by
  have ran : step segment line (byte '=') rest = if rest.head? = some (byte '=') then
      .ok ⟨[{ kind := .equal, line }], line, rest.tail⟩
    else .ok ⟨[{ kind := .assign, line }], line, rest⟩ := rfl
  refine of_step (t := []) ?_
  rw [List.nil_append, ran, if_neg single]

theorem word {name : Text} (identifier : Text.isIdentifier name = true)
    (ends : ∀ b ∈ rest.head?, insideName b = false) :
    Spells segment line name [Token.ofWord line name] rest := by
  cases name with
  | nil => cases identifier
  | cons b t =>
      simp only [Text.isIdentifier, Bool.and_eq_true] at identifier
      obtain ⟨opens, inside⟩ := identifier
      have all : ∀ c ∈ b :: t, insideName c = true := by
        refine List.forall_mem_cons.mpr ⟨by simp [insideName, opens], ?_⟩
        simpa using inside
      have stops : rest.takeWhile insideName = [] ∧ rest.dropWhile insideName = rest := by
        cases rest with
        | nil => exact ⟨rfl, rfl⟩
        | cons c rest => simp [ends c rfl]
      have ran : step segment line b (t ++ rest) = .ok (Lexer.word line (b :: (t ++ rest))) :=
        step_word opens
      refine of_step ?_
      rw [ran, Lexer.word, ← List.cons_append, List.takeWhile_append_of_pos all,
        List.dropWhile_append_of_pos all, stops.1, stops.2, List.append_nil]

theorem number {t : Text} (shape : Numeral t) (ends : EndsNumber rest) {x : Float}
    (value : readNumber? t = some x) :
    Spells segment line t [{ kind := .number x, line }] rest := by
  obtain ⟨b, u, rfl, digit⟩ := shape.first
  refine of_step ?_
  rw [step_digit digit, Lexer.number, ← List.cons_append, numeral_numeral shape ends]
  dsimp only
  rw [dropPoint_numeral shape, value]

theorem string {t : Text} (verbatim : Verbatim t) :
    Spells segment line (byte '"' :: (t ++ [byte '"'])) [{ kind := .string, line, text := t }]
      rest := by
  have read : Lexer.string segment line none (t ++ [byte '"'] ++ rest) = .ok ⟨t, [], rest⟩ := by
    rw [List.append_assoc]
    exact string_verbatim verbatim
  exact of_step (step_string read)

end Spells

end Spelling

end Lexer

/-- A source that spells tokens has these tokens. -/
theorem lex_of_spells {source : Text} {tokens : List Token}
    (spells : Lexer.Spells Lexer.segmentTokens 1 source tokens []) : lex source = .ok tokens := by
  unfold Lexer.Spells at spells
  unfold lex
  rw [List.append_nil] at spells
  rw [spells]
  simp [Lexer.tokensFrom, Except.map]

end EplLang
