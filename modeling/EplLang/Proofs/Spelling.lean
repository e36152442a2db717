import EplLang.Proofs.Lexing

/-!
# Tokens written out

A token has spellings: a mark is written as itself, a word as its bytes, a number as a numeral
that has its value, a string between quotes with some of its bytes escaped, and an interpolated
string with its segments in braces at their offsets. Tokens are written one after another with
a separator between each two: a blank, and then any blanks and closed block comments of one line.

**Reading gives the tokens back** (`lex_joined`), in their order and with nothing changed but
their lines: a token gets the line it stands on, which is one more than the number of newline
tokens before it, and the tokens of a segment get the line of their string.

A separator starts with a blank, and this is all a reader has to know of what comes after a
token (`Parted`): no word and no number goes on with a blank, no equals sign and no comment
starts with one. The inside of a segment is found before it is read, as everything up to the next
brace. So nothing that is written in a segment may hold a brace (`Braceless`), and what is written
there is again a row of tokens, read by itself.
-/

set_option autoImplicit false

namespace EplLang

open Text (byte)

/-- A token put on a line, together with the tokens of its segments. -/
def Token.onLine (line : Int) (t : Token) : Token :=
  { t with
    line
    parts := t.parts.map fun part => (part.1, part.2.map fun inner => { inner with line }) }

namespace Lexer

open Text (isDigit opensName insideName)

/-! ## How tokens are written -/

/-- The marks of one byte that start no longer token. -/
def marks : List (Kind × Char) :=
  [(.plus, '+'), (.minus, '-'), (.times, '*'), (.power, '^'), (.openParen, '('), (.closeParen, ')'),
    (.openBracket, '['), (.closeBracket, ']'), (.openBrace, '{'), (.closeBrace, '}'), (.comma, ','),
    (.dot, '.'), (.length, '#')]

/-- The marks that stand alone or with an equals sign after them, with the class of each. -/
def pairs : List (Kind × Kind × Char) :=
  [(.assign, .equal, '='), (.not, .notEqual, '!'), (.less, .lessEqual, '<'),
    (.greater, .greaterEqual, '>')]

/-- The words for values. -/
def valueWords : List (Kind × Text) :=
  [(.null, "null"), (.boolean true, "true"), (.boolean false, "false")]

/-- A byte of a string as it is written between the quotes. -/
def escape (b : UInt8) : Text :=
  if b = byte '\n' then [byte '\\', byte 'n']
  else if b ∈ [byte '"', byte '\\', byte '{'] then [byte '\\', b]
  else [b]

/-- The bytes of a string as they are written between the quotes. -/
def escaped (t : Text) : Text := t.flatMap escape

/-- A text between double quotes. -/
def quoted (t : Text) : Text := byte '"' :: (t ++ [byte '"'])

/-- Every token but an interpolated string, and how it is written. -/
inductive Simple : Token → Text → Prop where
  | newline {line : Int} : Simple { kind := .newline, line } [byte '\n']
  | mark {line : Int} {kind : Kind} {c : Char} : (kind, c) ∈ marks → Simple { kind, line } [byte c]
  | single {line : Int} {kind other : Kind} {c : Char} : (kind, other, c) ∈ pairs →
      Simple { kind, line } [byte c]
  | double {line : Int} {kind other : Kind} {c : Char} : (other, kind, c) ∈ pairs →
      Simple { kind, line } [byte c, byte '=']
  | divide {line : Int} : Simple { kind := .divide, line } [byte '/']
  | value {line : Int} {kind : Kind} {text : Text} : (kind, text) ∈ valueWords →
      Simple { kind, line } text
  | keyword {line : Int} {text : Text} : text ∈ Token.keywords →
      Simple { kind := .keyword, line, text } text
  | name {line : Int} {text : Text} : Text.isIdentifier text = true → text ∉ Token.reserved →
      Simple { kind := .identifier, line, text } text
  | number {line : Int} {text : Text} {x : Float} : Text.Numeral text → readNumber? text = some x →
      Simple { kind := .number x, line } text
  | string {line : Int} {text : Text} :
      Simple { kind := .string, line, text } (quoted (escaped text))

/-- Blanks and closed block comments within a line, in any order. -/
inductive Filler : Text → Prop where
  | nil : Filler []
  | blank {b : UInt8} {t : Text} : isBlank b = true → Filler t → Filler (b :: t)
  | comment {body t : Text} : byte '\n' ∉ body → ¬ [byte '*', byte '/'] <:+: body → Filler t →
      Filler (byte '/' :: byte '*' :: (body ++ byte '*' :: byte '/' :: t))

/-- What stands between two tokens. -/
def Separator (t : Text) : Prop := ∃ b u, t = b :: u ∧ isBlank b = true ∧ Filler u

/-- Tokens written one after another with something between each two. -/
inductive Joined (written : Token → Text → Prop) (between : Text → Prop) :
    List Token → Text → Prop where
  | nil : Joined written between [] []
  | one {t : Token} {s : Text} : written t s → Joined written between [t] s
  | cons {t u : Token} {others : List Token} {s gap rest : Text} : written t s → between gap →
      Joined written between (u :: others) rest →
      Joined written between (t :: u :: others) (s ++ (gap ++ rest))

/-- No brace occurs in a text. -/
def Braceless (t : Text) : Prop := byte '{' ∉ t ∧ byte '}' ∉ t

instance : DecidablePred Braceless := fun _ => inferInstanceAs (Decidable (_ ∧ _))

/-- A token in a segment of a string, and how it is written. -/
structure Inner (t : Token) (s : Text) : Prop where
  simple : Simple t s
  kind : t.kind ∉ [.newline, .openBrace, .closeBrace]
  text : Braceless t.text

/-- The tokens of a segment and how they are written. -/
abbrev InnerJoined : List Token → Text → Prop :=
  Joined Inner fun gap => Separator gap ∧ Braceless gap

/-- The inside of a string from an offset on: the text, the segments with their offsets, and how
they are written. -/
inductive Body : Nat → Text → List (Nat × List Token) → Text → Prop where
  | done {offset : Nat} {text : Text} : Body offset text [] (escaped text)
  | part {offset : Nat} {chunk text inside s : Text} {tokens : List Token}
      {parts : List (Nat × List Token)} :
      InnerJoined tokens inside → Body (offset + chunk.length) text parts s →
      Body offset (chunk ++ text) ((offset + chunk.length, tokens) :: parts)
        (escaped chunk ++ byte '{' :: (inside ++ byte '}' :: s))

/-- A token and how it is written. -/
inductive Written : Token → Text → Prop where
  | simple {t : Token} {s : Text} : Simple t s → Written t s
  | interpolated {line : Int} {text s : Text} {parts : List (Nat × List Token)} : parts ≠ [] →
      Body 0 text parts s → Written { kind := .interpolated, line, text, parts } (quoted s)

/-! ## Where a token ends -/

/-- Nothing follows, or a blank. -/
def Parted (rest : Text) : Prop := ∀ b ∈ rest.head?, isBlank b = true

section Reading

variable {segment : Int → Text → Except Stop (List Token)} {line : Int} {rest : Text}

theorem Parted.ne (parted : Parted rest) {b : UInt8} (mark : isBlank b = false) :
    rest.head? ≠ some b := by
  intro first
  have blank := parted b first
  rw [mark] at blank
  cases blank

theorem Parted.endsToken (parted : Parted rest) : EndsToken rest := by
  intro b first
  have blank : isBlank b = true := parted b first
  simp only [isBlank, Bool.or_eq_true, beq_iff_eq] at blank
  rcases blank with ((rfl | rfl) | rfl) | rfl <;> decide

theorem step_pair {single double : Kind} {c : Char} (pair : (single, double, c) ∈ pairs)
    (t : Text) :
    step segment line (byte c) t =
      if t.head? = some (byte '=') then .ok ⟨[{ kind := double, line }], line, t.tail⟩
      else .ok ⟨[{ kind := single, line }], line, t⟩ := by
  fin_cases pair <;> rfl

/-! ## The inside of a string -/

theorem string_escapedByte (b : UInt8) {t : Text} :
    string segment line none (escape b ++ t) =
      (string segment line none t).map (StringBody.push b) := by
  unfold escape
  split
  case isTrue newline =>
    subst newline
    exact string_escape (byte 'n')
  case isFalse newline =>
    split
    case isTrue special =>
      have plain : b ≠ byte 'n' := by
        rintro rfl
        revert special
        decide
      rw [List.cons_append, List.singleton_append, string_escape, if_neg plain]
    case isFalse special =>
      simp only [List.mem_cons, List.not_mem_nil, or_false, not_or] at special
      obtain ⟨quote, backslash, brace⟩ := special
      exact string_plain quote newline backslash brace

/-- Bytes in front of the inside of a string. -/
def StringBody.prepend (chunk : Text) (body : StringBody) : StringBody :=
  ⟨chunk ++ body.text, body.parts.map fun part => (part.1 + chunk.length, part.2), body.rest⟩

theorem string_escaped (chunk : Text) {t : Text} :
    string segment line none (escaped chunk ++ t) =
      (string segment line none t).map (StringBody.prepend chunk) := by
  induction chunk with
  | nil =>
      rw [escaped, List.flatMap_nil, List.nil_append]
      cases string segment line none t with
      | error stop => rfl
      | ok body => simp [Except.map, StringBody.prepend]
  | cons b chunk ih =>
      have split : escaped (b :: chunk) ++ t = escape b ++ (escaped chunk ++ t) := by
        rw [escaped, List.flatMap_cons, List.append_assoc]
        rfl
      rw [split, string_escapedByte, ih]
      cases string segment line none t with
      | error stop => rfl
      | ok body =>
          simp [Except.map, StringBody.push, StringBody.prepend, Function.comp_def, Nat.add_assoc]

theorem string_segment {seen inside t : Text} {tokens : List Token} (braceless : Braceless inside)
    (read : segment line (seen.reverse ++ inside) = .ok tokens) :
    string segment line (some seen) (inside ++ byte '}' :: t) =
      (string segment line none t).map (StringBody.pushPart tokens) := by
  induction inside generalizing seen with
  | nil =>
      rw [List.append_nil] at read
      exact string_close read
  | cons b inside ih =>
      obtain ⟨opening, closing⟩ := braceless
      rw [List.mem_cons, not_or] at opening closing
      rw [List.cons_append, string_inside (Ne.symm opening.1) (Ne.symm closing.1)]
      refine ih ⟨opening.2, closing.2⟩ ?_
      rw [List.reverse_cons, List.append_assoc]
      exact read

/-! ## Separators -/

theorem blockComment_body {body : Text} (unbroken : byte '\n' ∉ body)
    (inside : ¬ [byte '*', byte '/'] <:+: body) :
    blockComment line (body ++ byte '*' :: byte '/' :: rest) = ⟨[], line, rest⟩ := by
  induction body with
  | nil => rfl
  | cons b body ih =>
      have goesOn : ¬(b = byte '*' ∧
          (body ++ byte '*' :: byte '/' :: rest).head? = some (byte '/')) := by
        rintro ⟨rfl, next⟩
        cases body with
        | nil => cases next
        | cons c body =>
            cases next
            exact inside ⟨[], body, rfl⟩
      rw [List.mem_cons, not_or] at unbroken
      rw [List.cons_append, blockComment, if_neg goesOn, if_neg (Ne.symm unbroken.1)]
      exact ih unbroken.2 fun within => inside (within.trans (List.suffix_cons b body).isInfix)

theorem tokensFrom_filler {filler : Text} (shape : Filler filler) :
    tokensFrom segment line (filler ++ rest) = tokensFrom segment line rest := by
  induction shape with
  | nil => rfl
  | @blank b t blank _ ih =>
      have ran : step segment line b (t ++ rest) = .ok ⟨[], line, t ++ rest⟩ := by
        rw [step, if_pos blank]
      rw [List.cons_append, tokensFrom_cons ran, ih]
      cases tokensFrom segment line rest <;> rfl
  | @comment body t unbroken inside _ ih =>
      have closed : blockComment line (body ++ byte '*' :: byte '/' :: t ++ rest) =
          ⟨[], line, t ++ rest⟩ := by
        rw [List.append_assoc]
        exact blockComment_body unbroken inside
      have ran : step segment line (byte '/')
          (byte '*' :: (body ++ byte '*' :: byte '/' :: t) ++ rest) = .ok ⟨[], line, t ++ rest⟩ :=
        congrArg Except.ok closed
      rw [List.cons_append, tokensFrom_cons ran, ih]
      cases tokensFrom segment line rest <;> rfl

theorem Separator.parted {gap : Text} (separator : Separator gap) : Parted (gap ++ rest) := by
  obtain ⟨b, u, rfl, blank, _⟩ := separator
  intro c first
  cases first
  exact blank

theorem tokensFrom_separator {gap : Text} (separator : Separator gap) :
    tokensFrom segment line (gap ++ rest) = tokensFrom segment line rest := by
  obtain ⟨b, u, rfl, blank, filler⟩ := separator
  exact tokensFrom_filler (.blank blank filler)

/-! ## One token -/

theorem spells_string {text : Text} :
    Spells segment line (quoted (escaped text)) [{ kind := .string, line, text }] rest := by
  have read : string segment line none (escaped text ++ [byte '"'] ++ rest) =
      .ok ⟨text, [], rest⟩ := by
    rw [List.append_assoc, string_escaped, List.singleton_append, string_quote]
    simp [Except.map, StringBody.prepend]
  exact .of_step (step_string read)

/-- Reading a written token gives it back on the current line and goes on after it. -/
def ReadsBack (segment : Int → Text → Except Stop (List Token)) (t : Token) (s : Text) : Prop :=
  ∀ line rest, Parted rest → tokensFrom segment line (s ++ rest) =
    (tokensFrom segment (nextLine line t) rest).map (t.onLine line :: ·)

theorem readsBack_of_spells {t : Token} {s : Text} (flat : t.kind ≠ .newline) (bare : t.parts = [])
    (spells : ∀ line rest, Parted rest → Spells segment line s [{ t with line }] rest) :
    ReadsBack segment t s := by
  intro line rest parted
  have moved : t.onLine line = { t with line } := by simp [Token.onLine, bare]
  rw [nextLine, if_neg flat, moved]
  exact spells line rest parted

theorem readsBack_newline {own : Int} :
    ReadsBack segment { kind := .newline, line := own } [byte '\n'] := by
  intro line rest _
  have ran : step segment line (byte '\n') rest =
      .ok ⟨[{ kind := .newline, line }], line + 1, rest⟩ := rfl
  exact tokensFrom_cons ran

theorem readsBack_mark {own : Int} {kind : Kind} {c : Char} (mark : (kind, c) ∈ marks) :
    ReadsBack segment { kind, line := own } [byte c] := by
  refine readsBack_of_spells ?_ rfl fun line rest _ => ?_
  · rintro rfl
    simp [marks] at mark
  · fin_cases mark <;> exact .mark fun _ => rfl

theorem readsBack_single {own : Int} {kind other : Kind} {c : Char}
    (pair : (kind, other, c) ∈ pairs) :
    ReadsBack segment { kind, line := own } [byte c] := by
  refine readsBack_of_spells ?_ rfl fun line rest parted => .of_step (t := []) ?_
  · rintro rfl
    simp [pairs] at pair
  · rw [List.nil_append, step_pair pair, if_neg (parted.ne (by decide))]

theorem readsBack_double {own : Int} {kind other : Kind} {c : Char}
    (pair : (other, kind, c) ∈ pairs) :
    ReadsBack segment { kind, line := own } [byte c, byte '='] := by
  refine readsBack_of_spells ?_ rfl fun line rest _ => .of_step (t := [byte '=']) ?_
  · rintro rfl
    simp [pairs] at pair
  · rw [step_pair pair]
    rfl

theorem readsBack_divide {own : Int} :
    ReadsBack segment { kind := .divide, line := own } [byte '/'] := by
  refine readsBack_of_spells (by simp) rfl fun line rest parted => .of_step (t := []) ?_
  rw [List.nil_append, step_slash, if_neg (parted.ne (by decide)), if_neg (parted.ne (by decide))]

/-- A word, whatever class it has. -/
theorem readsBack_word {t : Token} {word : Text} (flat : t.kind ≠ .newline) (bare : t.parts = [])
    (identifier : Text.isIdentifier word = true)
    (token : ∀ line, Token.ofWord line word = { t with line }) : ReadsBack segment t word := by
  refine readsBack_of_spells flat bare fun line rest parted => ?_
  rw [← token line]
  exact .word identifier parted.endsToken.word

theorem readsBack_simple {t : Token} {s : Text} (simple : Simple t s) : ReadsBack segment t s := by
  cases simple with
  | newline => exact readsBack_newline
  | mark mark => exact readsBack_mark mark
  | single pair => exact readsBack_single pair
  | double pair => exact readsBack_double pair
  | divide => exact readsBack_divide
  | value word => fin_cases word <;> exact readsBack_word (by simp) rfl rfl fun line => rfl
  | keyword word => fin_cases word <;> exact readsBack_word (by simp) rfl rfl fun line => rfl
  | name identifier free =>
      exact readsBack_word (by simp) rfl identifier fun line => Token.ofWord_of_free line free
  | number shape value =>
      exact readsBack_of_spells (by simp) rfl fun line rest parted =>
        .number shape parted.endsToken.number value
  | string => exact readsBack_of_spells (by simp) rfl fun line rest _ => spells_string

/-! ## Tokens in a row -/

/-- The tokens with their lines, from a line on. -/
def numbered (line : Int) : List Token → List Token
  | [] => []
  | t :: others => t.onLine line :: numbered (nextLine line t) others

theorem tokensFrom_joined {written : Token → Text → Prop} {between : Text → Prop}
    (each : ∀ t s, written t s → ReadsBack segment t s) (gaps : ∀ gap, between gap → Separator gap)
    {tokens : List Token} {text : Text} (joined : Joined written between tokens text) :
    tokensFrom segment line text = .ok (numbered line tokens) := by
  induction joined generalizing line with
  | nil => rw [tokensFrom, numbered]
  | one written =>
      have read := each _ _ written line [] (by simp [Parted])
      rw [List.append_nil, tokensFrom] at read
      exact read
  | @cons t u others s gap rest written between _ ih =>
      have separator := gaps gap between
      rw [each t s written line _ separator.parted, tokensFrom_separator separator, ih]
      rfl

theorem numbered_of_flat {tokens : List Token} (flat : ∀ t ∈ tokens, t.kind ≠ .newline) :
    numbered line tokens = tokens.map (Token.onLine line) := by
  induction tokens with
  | nil => rfl
  | cons t others ih =>
      obtain ⟨here, there⟩ := List.forall_mem_cons.mp flat
      rw [numbered, nextLine, if_neg here, ih there, List.map_cons]

theorem numbered_eq_mapIdx (tokens : List Token) :
    numbered line tokens = tokens.mapIdx fun i t =>
      t.onLine (line + (tokens.take i).countP fun earlier => earlier.kind = .newline) := by
  induction tokens generalizing line with
  | nil => rfl
  | cons t others ih =>
      have moved (n : Nat) : nextLine line t + n =
          line + ((n + if t.kind = .newline then 1 else 0 : Nat) : Int) := by
        unfold nextLine
        split <;> omega
      rw [numbered, ih, List.mapIdx_cons]
      simp [moved, List.countP_cons]

/-! ## Segments -/

theorem Braceless.append {t u : Text} (first : Braceless t) (second : Braceless u) :
    Braceless (t ++ u) := by
  simp only [Braceless, List.mem_append, not_or]
  exact ⟨⟨first.1, second.1⟩, first.2, second.2⟩

theorem braceless_of_class {p : UInt8 → Bool} {t : Text} (all : ∀ b ∈ t, p b = true)
    (opening : p (byte '{') = false) (closing : p (byte '}') = false) : Braceless t := by
  constructor
  · intro member
    rw [all _ member] at opening
    cases opening
  · intro member
    rw [all _ member] at closing
    cases closing

theorem braceless_escaped {text : Text} (braceless : Braceless text) :
    Braceless (escaped text) := by
  induction text with
  | nil => exact braceless
  | cons b text ih =>
      obtain ⟨opening, closing⟩ := braceless
      rw [List.mem_cons, not_or] at opening closing
      refine Braceless.append ?_ (ih ⟨opening.2, closing.2⟩)
      have plain : Braceless [b] := by simpa [Braceless] using ⟨opening.1, closing.1⟩
      unfold escape
      split
      · decide
      · split
        · exact .append (t := [byte '\\']) (by decide) plain
        · exact plain

theorem braceless_numeral {t : Text} (shape : Text.Numeral t) : Braceless t := by
  have digits {u : Text} (digits : Text.Digits u) : Braceless u :=
    braceless_of_class digits.all (by decide) (by decide)
  cases shape with
  | whole first => exact digits first
  | @point t u first second =>
      exact (digits first).append (.append (t := [byte '.']) (by decide) (digits second))

theorem Inner.braceless {t : Token} {s : Text} (inner : Inner t s) : Braceless s := by
  have mark : ∀ entry ∈ marks, entry.1 ∉ [.newline, .openBrace, .closeBrace] →
      Braceless [byte entry.2] := by decide
  have single : ∀ entry ∈ pairs, Braceless [byte entry.2.2] := by decide
  have double : ∀ entry ∈ pairs, Braceless [byte entry.2.2, byte '='] := by decide
  have word : ∀ entry ∈ valueWords, Braceless entry.2 := by decide
  obtain ⟨simple, kind, text⟩ := inner
  cases simple with
  | newline => decide
  | mark entry => exact mark _ entry kind
  | single entry => exact single _ entry
  | double entry => exact double _ entry
  | divide => decide
  | value entry => exact word _ entry
  | keyword | name => exact text
  | number shape => exact braceless_numeral shape
  | string =>
      exact .append (t := [byte '"']) (by decide) (.append (braceless_escaped text) (by decide))

theorem InnerJoined.braceless {tokens : List Token} {inside : Text}
    (joined : InnerJoined tokens inside) : Braceless inside := by
  induction joined with
  | nil => decide
  | one inner => exact inner.braceless
  | cons inner gap _ ih => exact inner.braceless.append (gap.2.append ih)

theorem InnerJoined.inner {tokens : List Token} {inside : Text}
    (joined : InnerJoined tokens inside) : ∀ t ∈ tokens, ∃ s, Inner t s := by
  induction joined with
  | nil => simp
  | one inner => exact fun t member => List.mem_singleton.mp member ▸ ⟨_, inner⟩
  | cons inner gap _ ih => exact List.forall_mem_cons.mpr ⟨⟨_, inner⟩, ih⟩

theorem Simple.parts {t : Token} {s : Text} (simple : Simple t s) : t.parts = [] := by
  cases simple <;> rfl

theorem segmentTokens_joined {tokens : List Token} {inside : Text}
    (joined : InnerJoined tokens inside) :
    segmentTokens line inside = .ok (tokens.map fun t => { t with line }) := by
  have flat : ∀ t ∈ tokens, t.kind ≠ .newline := by
    intro t member same
    obtain ⟨s, inner⟩ := joined.inner t member
    exact inner.kind (same ▸ List.mem_cons_self)
  have bare : ∀ t ∈ tokens, t.onLine line = { t with line } := by
    intro t member
    obtain ⟨s, inner⟩ := joined.inner t member
    simp [Token.onLine, inner.simple.parts]
  rw [segmentTokens, tokensFrom_joined (fun t s inner => readsBack_simple inner.simple)
    (fun gap between => between.1) joined, numbered_of_flat flat, List.map_congr_left bare]

/-- The inside of a written string is read with its segments at their offsets. -/
theorem string_body {offset : Nat} {text s : Text} {parts : List (Nat × List Token)}
    (body : Body offset text parts s) :
    ∃ read, string segmentTokens line none (s ++ byte '"' :: rest) = .ok ⟨text, read, rest⟩ ∧
      (read.map fun part => (part.1 + offset, part.2)) =
        parts.map fun part => (part.1, part.2.map fun t => { t with line }) := by
  induction body with
  | @done offset text =>
      refine ⟨[], ?_, rfl⟩
      rw [string_escaped, string_quote]
      simp [Except.map, StringBody.prepend]
  | @part offset chunk text inside s tokens parts joined _ ih =>
      obtain ⟨read, eq, same⟩ := ih
      refine ⟨(chunk.length, tokens.map fun t => { t with line }) ::
        read.map fun part => (part.1 + chunk.length, part.2), ?_, ?_⟩
      · rw [List.append_assoc, string_escaped, List.cons_append, string_open, List.append_assoc,
          List.cons_append,
          string_segment (InnerJoined.braceless joined) (segmentTokens_joined joined), eq]
        simp [Except.map, StringBody.prepend, StringBody.pushPart]
      · rw [List.map_cons, List.map_cons, ← same, List.map_map]
        simp [Function.comp_def, Nat.add_comm, Nat.add_left_comm]

theorem readsBack_written {t : Token} {s : Text} (written : Written t s) :
    ReadsBack segmentTokens t s := by
  cases written with
  | simple simple => exact readsBack_simple simple
  | @interpolated own text s parts some body =>
      intro line rest _
      obtain ⟨read, eq, same⟩ := string_body body
      have token : StringBody.token line ⟨text, read, rest⟩ =
          Token.onLine line { kind := .interpolated, line := own, text, parts } := by
        have moved : read = parts.map fun part =>
            (part.1, part.2.map fun t => { t with line }) := by simpa using same
        simp [StringBody.token, Token.onLine, moved, some]
      have ran := step_string eq
      rw [token] at ran
      rw [quoted, List.cons_append, List.append_assoc]
      exact tokensFrom_cons ran

end Reading

end Lexer

/-- **Lexing undoes writing.** Tokens written in a row are read as these tokens, each on the line
that is one more than the number of newline tokens before it. -/
theorem lex_joined {tokens : List Token} {text : Text}
    (joined : Lexer.Joined Lexer.Written Lexer.Separator tokens text) :
    lex text = .ok (tokens.mapIdx fun i t =>
      t.onLine (1 + (tokens.take i).countP fun earlier => earlier.kind = .newline)) := by
  rw [← Lexer.numbered_eq_mapIdx]
  exact Lexer.tokensFrom_joined (fun t s written => Lexer.readsBack_written written)
    (fun gap separator => separator) joined

/-- A division inside a segment, after an escaped brace, behind a newline and a comment. -/
theorem lex_joined_segment :
    ∃ x, readNumber? "2" = some x ∧
      Lexer.Joined Lexer.Written Lexer.Separator
        [{ kind := .identifier, line := 0, text := "x" }, { kind := .newline, line := 0 },
          { kind := .interpolated, line := 0, text := "a\x7b\n", parts :=
            [(2, [{ kind := .divide, line := 0 }, { kind := .number x, line := 0 }])] }]
        "x \n /*c*/ \"a\\\x7b\x7b/ 2\x7d\\n\"" ∧
      lex "x \n /*c*/ \"a\\\x7b\x7b/ 2\x7d\\n\"" = .ok
        [{ kind := .identifier, line := 1, text := "x" }, { kind := .newline, line := 1 },
          { kind := .interpolated, line := 2, text := "a\x7b\n", parts :=
            [(2, [{ kind := .divide, line := 2 }, { kind := .number x, line := 2 }])] }] := by
  obtain ⟨x, two⟩ : ∃ x, readNumber? "2" = some x :=
    Option.isSome_iff_exists.mp (by decide +kernel)
  have blank : Lexer.Separator " " := ⟨byte ' ', [], rfl, rfl, .nil⟩
  have filler : Lexer.Filler "/*c*/ " :=
    @Lexer.Filler.comment "c" " " (by decide) (by decide) (.blank rfl .nil)
  have comment : Lexer.Separator " /*c*/ " := ⟨byte ' ', _, rfl, rfl, filler⟩
  have divide : Lexer.Inner { kind := .divide, line := 0 } "/" := ⟨.divide, by simp, by decide⟩
  have number : Lexer.Inner { kind := .number x, line := 0 } "2" :=
    ⟨.number (.whole (Text.digits_ofNat 2)) two, by simp, List.not_mem_nil, List.not_mem_nil⟩
  have within : Lexer.Separator " " ∧ Lexer.Braceless " " := ⟨blank, by decide⟩
  have inside : Lexer.InnerJoined _ _ := .cons divide within (.one number)
  have body := @Lexer.Body.part 0 "a\x7b" "\n" _ _ _ _ inside .done
  have name : Lexer.Simple { kind := .identifier, line := 0, text := "x" } "x" :=
    .name rfl (by decide)
  have newline : Lexer.Simple { kind := .newline, line := 0 } "\n" := .newline
  have string := @Lexer.Written.interpolated 0 _ _ _ (List.cons_ne_nil _ _) body
  have joined := Lexer.Joined.cons (.simple name) blank
    (.cons (.simple newline) comment (.one string))
  exact ⟨x, two, joined, lex_joined joined⟩

end EplLang
