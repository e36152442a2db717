import EplLang.Proofs.Lexing

/-!
# Where tokens stand

Reading a source can note for each token the bytes it was read from and the source after
them (`placesFrom`); without the notes it is the lexer. Each token then stands at a place in the
source, and the newlines before that place can be counted.

Only tokens count lines: every newline byte outside strings is a newline token, those in block
comments included, and what is skipped between two tokens holds none. A string counts as no
line at all, although a newline byte may stand in it, after a backslash or in a segment. So the
line of a token falls short of its place by the newline bytes in the strings before it
(`Placed.hidden`), and by nothing else.
-/

set_option autoImplicit false

namespace EplLang

namespace Lexer

open Text (byte isDigit opensName insideName)

/-- The number of newline bytes in a text. -/
def newlines (t : Text) : Nat := t.count (byte '\n')

@[simp] theorem newlines_nil : newlines [] = 0 := rfl

@[simp] theorem newlines_append (t u : Text) : newlines (t ++ u) = newlines t + newlines u :=
  List.count_append

theorem newlines_eq_zero {t : Text} (unbroken : ∀ b ∈ t, b ≠ byte '\n') : newlines t = 0 :=
  List.count_eq_zero.mpr fun member => unbroken _ member rfl

/-! ## Tokens with their places -/

/-- A token with the bytes it was read from and the source after them. -/
structure Placed where
  token : Token
  own : Text
  after : Text

/-- The newline bytes of a string, those in its segments included. -/
def Placed.hidden (p : Placed) : Nat :=
  if p.token.kind ∈ [.string, .interpolated] then newlines p.own else 0

/-- The part of a text in front of its end `rest`. -/
def front (t rest : Text) : Text := t.take (t.length - rest.length)

@[simp] theorem front_append (own rest : Text) : front (own ++ rest) rest = own := by
  simp [front]

/-- The newlines of a block comment after its opening, each with its place. -/
def commentPlaces (line : Int) : Text → List Placed
  | [] => []
  | b :: t =>
    if b = byte '*' ∧ t.head? = some (byte '/') then []
    else if b = byte '\n' then ⟨{ kind := .newline, line }, [b], t⟩ :: commentPlaces (line + 1) t
    else commentPlaces line t

/-- The tokens of a step with their places. Outside block comments a step reads one token at
most, and from all the bytes it takes. -/
def stepPlaces (line : Int) (b : UInt8) (t : Text) (s : Step) : List Placed :=
  if b = byte '/' ∧ t.head? = some (byte '*') then commentPlaces line t.tail
  else s.tokens.map fun token => ⟨token, front (b :: t) s.rest, s.rest⟩

/-- The tokens of a text, each with its place. -/
def placesFrom (segment : Int → Text → Except Stop (List Token)) (line : Int) :
    Text → Except Stop (List Placed)
  | [] => .ok []
  | b :: t =>
    match _h : step segment line b t with
    | .error stop => .error stop
    | .ok s => (placesFrom segment s.line s.rest).map (stepPlaces line b t s ++ ·)
termination_by t => t.length
decreasing_by exact Nat.lt_succ_of_le (length_step _ _ _ _ _ _h)

/-- A token stands on a line: it starts with the first of its bytes and ends with the last, and
newline bytes of it that move no line are hidden in a string. -/
structure Stands (segment : Int → Text → Except Stop (List Token)) (line : Int) (p : Placed) :
    Prop where
  onLine : p.token.line = line
  reads : ∃ b t, p.own = b :: t ∧
    step segment line b t = .ok ⟨[p.token], nextLine line p.token, []⟩
  counted : line + newlines p.own = nextLine line p.token + p.hidden

/-- A text consists of tokens with their places, from a line to another line and up to a rest.
Between the tokens there is no newline byte. -/
inductive Spread (segment : Int → Text → Except Stop (List Token)) :
    Int → Text → List Placed → Int → Text → Prop where
  | done {line : Int} {t : Text} : Spread segment line t [] line t
  | skip {line line' : Int} (gap : Text) {t rest : Text} {places : List Placed} :
      newlines gap = 0 → Spread segment line t places line' rest →
      Spread segment line (gap ++ t) places line' rest
  | token {line line' : Int} {p : Placed} {rest : Text} {places : List Placed} :
      Stands segment line p → Spread segment (nextLine line p.token) p.after places line' rest →
      Spread segment line (p.own ++ p.after) (p :: places) line' rest

section Reading

variable {segment : Int → Text → Except Stop (List Token)} {line : Int}

namespace Spread

theorem trans {line line' line'' : Int} {t rest rest' : Text} {places places' : List Placed}
    (first : Spread segment line t places line' rest)
    (second : Spread segment line' rest places' line'' rest') :
    Spread segment line t (places ++ places') line'' rest' := by
  induction first with
  | done => exact second
  | skip gap unbroken _ ih => exact .skip gap unbroken (ih second)
  | token stands _ ih => exact .token stands (ih second)

/-- The lines of tokens count the newline bytes before them, but for the hidden ones. -/
theorem line_eq {line line' : Int} {t rest : Text} {places : List Placed}
    (spread : Spread segment line t places line' rest) {earlier later : List Placed} {p : Placed}
    (split : places = earlier ++ p :: later) :
    ∃ before, t = before ++ p.own ++ p.after ∧ Stands segment p.token.line p ∧
      p.token.line + (earlier.map Placed.hidden).sum = line + newlines before := by
  induction spread generalizing earlier with
  | done => simp at split
  | @skip line line' gap t rest places unbroken _ ih =>
      obtain ⟨before, after, stands, same⟩ := ih split
      refine ⟨gap ++ before, by simp only [after, List.append_assoc], stands, ?_⟩
      rw [newlines_append, unbroken, same, Nat.zero_add]
  | @token line line' q rest places stands _ ih =>
      cases earlier with
      | nil =>
          cases split
          exact ⟨[], rfl, stands.onLine.symm ▸ stands, by simp [stands.onLine]⟩
      | cons first earlier =>
          cases split
          obtain ⟨before, after, others, same⟩ := ih rfl
          refine ⟨q.own ++ before, by simp only [after, List.append_assoc], others, ?_⟩
          have here := stands.counted
          simp only [List.map_cons, List.sum_cons, newlines_append, Nat.cast_add]
          omega

end Spread

/-! ## The bytes of a token

What a reader takes off a text it also takes when nothing comes after. -/

theorem numeral_own {seen : Bool} {t word rest : Text}
    (read : numeral seen t = some (word, rest)) :
    t = word ++ rest ∧ (∀ b ∈ word, b ≠ byte '\n') ∧ numeral seen word = some (word, []) := by
  fun_induction numeral seen t generalizing word rest with
  | case1 =>
      cases read
      exact ⟨rfl, by simp, rfl⟩
  | case2 => cases read
  | case3 seen t unseen ih =>
      obtain ⟨⟨word, rest⟩, inner, same⟩ := Option.map_eq_some_iff.mp read
      cases same
      obtain ⟨rfl, unbroken, alone⟩ := ih inner
      refine ⟨rfl, List.forall_mem_cons.mpr ⟨by decide, unbroken⟩, ?_⟩
      rw [numeral, if_pos rfl, if_neg unseen, alone]
      rfl
  | case4 seen b t point digit ih =>
      obtain ⟨⟨word, rest⟩, inner, same⟩ := Option.map_eq_some_iff.mp read
      cases same
      obtain ⟨rfl, unbroken, alone⟩ := ih inner
      refine ⟨rfl, List.forall_mem_cons.mpr ⟨Text.ne_of_class digit (by decide), unbroken⟩, ?_⟩
      rw [numeral, if_neg point, if_pos digit, alone]
      rfl
  | case5 =>
      cases read
      exact ⟨rfl, by simp, rfl⟩

theorem string_own {inside : Option Text} {t : Text} {body : StringBody}
    (read : string segment line inside t = .ok body) :
    ∃ own, t = own ++ body.rest ∧
      ∀ rest, string segment line inside (own ++ rest) = .ok { body with rest } := by
  fun_induction string segment line inside t generalizing body with
  | case1 | case2 | case3 | case4 | case8 | case9 => cases read
  | case5 inside t tokens segment brace ih =>
      obtain ⟨inner, eq, rfl⟩ := map_eq_ok read
      obtain ⟨own, rfl, again⟩ := ih eq
      refine ⟨byte '}' :: own, rfl, fun rest => ?_⟩
      rw [List.cons_append, string_close segment, again]
      rfl
  | case6 inside b t brace close ih =>
      obtain ⟨own, rfl, again⟩ := ih read
      refine ⟨b :: own, rfl, fun rest => ?_⟩
      rw [List.cons_append, string_inside brace close, again]
  | case7 t =>
      cases read
      exact ⟨[byte '"'], rfl, fun rest => string_quote⟩
  | case10 c u _ _ ih =>
      obtain ⟨inner, eq, rfl⟩ := map_eq_ok read
      obtain ⟨own, rfl, again⟩ := ih eq
      refine ⟨byte '\\' :: c :: own, rfl, fun rest => ?_⟩
      rw [List.cons_append, List.cons_append, string_escape, again]
      rfl
  | case11 t _ _ _ ih =>
      obtain ⟨own, rfl, again⟩ := ih read
      refine ⟨byte '{' :: own, rfl, fun rest => ?_⟩
      rw [List.cons_append, string_open, again]
  | case12 b t quote newline escape brace ih =>
      obtain ⟨inner, eq, rfl⟩ := map_eq_ok read
      obtain ⟨own, rfl, again⟩ := ih eq
      refine ⟨b :: own, rfl, fun rest => ?_⟩
      rw [List.cons_append, string_plain quote newline escape brace, again]
      rfl

/-! ## What a step can do -/

/-- A step that is no block comment skips bytes without a newline, or reads one token. -/
inductive Move (segment : Int → Text → Except Stop (List Token)) (line : Int) (t : Text) :
    Step → Prop where
  | skip {gap rest : Text} : t = gap ++ rest → newlines gap = 0 →
      Move segment line t ⟨[], line, rest⟩
  | token {own rest : Text} {token : Token} : t = own ++ rest →
      Stands segment line ⟨token, own, rest⟩ →
      Move segment line t ⟨[token], nextLine line token, rest⟩

/-- A class of tokens without a newline byte. -/
def Flat (kind : Kind) : Prop := kind ∉ [.newline, .string, .interpolated]

theorem of_ite_some {α : Type} {P : α → Prop} {c : Prop} [Decidable c] {a b : α} {other : Option α}
    (read : (if c then some a else other) = some b) (here : P a) (there : other = some b → P b) :
    P b := by
  split at read
  · cases read
    exact here
  · exact there read

theorem flat_mark {b : UInt8} {kind : Kind} (mark : mark? b = some kind) : Flat kind := by
  unfold mark? at mark
  iterate 13 refine of_ite_some mark (by simp [Flat]) fun mark => ?_
  cases mark

theorem flat_pair {b : UInt8} {single double : Kind} (pair : pair? b = some (single, double)) :
    Flat single ∧ Flat double := by
  unfold pair? at pair
  grind [Flat]

theorem flat_word (line : Int) (name : Text) : Flat (Token.ofWord line name).kind := by
  unfold Token.ofWord
  grind [Flat]

theorem line_ofWord (line : Int) (name : Text) : (Token.ofWord line name).line = line := by
  unfold Token.ofWord
  grind

theorem stands_newline (line : Int) (after : Text) :
    Stands segment line ⟨{ kind := .newline, line }, [byte '\n'], after⟩ where
  onLine := rfl
  reads := ⟨_, _, rfl, rfl⟩
  counted := by simp [nextLine, Placed.hidden, newlines]

theorem Move.flat {b : UInt8} {t u rest : Text} {token : Token} (split : t = u ++ rest)
    (flat : Flat token.kind) (onLine : token.line = line) (unbroken : ∀ c ∈ b :: u, c ≠ byte '\n')
    (ran : step segment line b u = .ok ⟨[token], line, []⟩) :
    Move segment line (b :: t) ⟨[token], line, rest⟩ := by
  have newline : token.kind ≠ .newline := fun same => flat (same ▸ List.mem_cons_self)
  have quoted : token.kind ∉ [.string, .interpolated] := fun member =>
    flat (List.mem_cons_of_mem _ member)
  have next : nextLine line token = line := if_neg newline
  have stands : Stands segment line ⟨token, b :: u, rest⟩ := by
    refine ⟨onLine, ⟨b, u, rfl, next.symm ▸ ran⟩, ?_⟩
    rw [next, newlines_eq_zero unbroken, Placed.hidden, if_neg quoted]
  have moved := Move.token (congrArg (b :: ·) split) stands
  rwa [next] at moved

theorem move_number {b : UInt8} {t : Text} {s : Step} (digit : isDigit b = true)
    (ran : number line (b :: t) = .ok s) : Move segment line (b :: t) s := by
  unfold number at ran
  split at ran
  case h_1 => cases ran
  case h_2 word rest read =>
    split at ran
    case h_1 => cases ran
    case h_2 x value =>
      cases ran
      obtain ⟨split, unbroken, again⟩ := numeral_own read
      obtain ⟨u, rfl⟩ : ∃ u, word = b :: u := by
        have noPoint : b ≠ byte '.' := Text.ne_of_class digit (by decide)
        rw [numeral, if_neg noPoint, if_pos digit] at read
        obtain ⟨⟨u, rest⟩, _, same⟩ := Option.map_eq_some_iff.mp read
        cases same
        exact ⟨u, rfl⟩
      have alone : step segment line b u = .ok ⟨[{ kind := .number x, line }], line, []⟩ := by
        rw [step_digit digit, number, again]
        dsimp only
        rw [value]
      exact .flat (List.cons.inj split).2 (by simp [Flat]) rfl unbroken alone

theorem move_word {b : UInt8} {t : Text} (opens : opensName b = true) :
    Move segment line (b :: t) (word line (b :: t)) := by
  have inside : insideName b = true := by simp [insideName, opens]
  have all : ∀ c ∈ b :: t.takeWhile insideName, insideName c = true :=
    List.forall_mem_cons.mpr ⟨inside, fun c member => List.mem_takeWhile_imp member⟩
  have unbroken : ∀ c ∈ b :: t.takeWhile insideName, c ≠ byte '\n' := fun c member =>
    Text.ne_of_class (all c member) (by decide)
  have alone : step segment line b (t.takeWhile insideName) =
      .ok ⟨[Token.ofWord line (b :: t.takeWhile insideName)], line, []⟩ := by
    rw [step_word opens, word, List.takeWhile_eq_self_iff.mpr all,
      List.dropWhile_eq_nil_iff.mpr all]
  have split : t = t.takeWhile insideName ++ t.dropWhile insideName :=
    List.takeWhile_append_dropWhile.symm
  rw [word, List.takeWhile_cons_of_pos inside, List.dropWhile_cons_of_pos inside]
  exact .flat split (flat_word _ _) (line_ofWord _ _) unbroken alone

theorem move_string {t : Text} {body : StringBody} (read : string segment line none t = .ok body) :
    Move segment line (byte '"' :: t) ⟨[body.token line], line, body.rest⟩ := by
  obtain ⟨own, split, again⟩ := string_own read
  have kind : (body.token line).kind ∈ [.string, .interpolated] := by
    unfold StringBody.token
    split <;> simp
  have next : nextLine line (body.token line) = line := if_neg fun same => by
    rw [same] at kind
    simp at kind
  have alone : string segment line none own = .ok { body with rest := [] } := by
    simpa using again []
  have stands : Stands segment line ⟨body.token line, byte '"' :: own, body.rest⟩ := by
    refine ⟨rfl, ⟨_, _, rfl, next.symm ▸ step_string alone⟩, ?_⟩
    rw [next, Placed.hidden, if_pos kind]
  have moved := Move.token (congrArg (byte '"' :: ·) split) stands
  rwa [next] at moved

theorem move_slash {t : Text} {s : Step} (noComment : t.head? ≠ some (byte '*'))
    (ran : step segment line (byte '/') t = .ok s) : Move segment line (byte '/' :: t) s := by
  rw [step_slash, if_neg noComment] at ran
  split at ran
  case isTrue =>
    cases ran
    have unbroken : newlines (byte '/' :: t.takeWhile (· != byte '\n')) = 0 := by
      refine newlines_eq_zero (List.forall_mem_cons.mpr ⟨by decide, fun c member => ?_⟩)
      simpa using List.mem_takeWhile_imp member
    exact .skip (congrArg (byte '/' :: ·) List.takeWhile_append_dropWhile.symm) unbroken
  case isFalse =>
    cases ran
    exact .flat (u := []) rfl (by simp [Flat]) rfl (by simp [byte]) rfl

theorem move_punctuation {b : UInt8} {t : Text} {s : Step} (newline : b ≠ byte '\n')
    (reads : ∀ u, step segment line b u = punctuation line b u)
    (ran : punctuation line b t = .ok s) : Move segment line (b :: t) s := by
  have unbroken : ∀ c ∈ [b], c ≠ byte '\n' := by simpa using newline
  unfold punctuation at reads ran
  split at ran
  case h_1 kind mark =>
    cases ran
    exact .flat (u := []) rfl (flat_mark mark) rfl unbroken (by rw [reads, mark])
  case h_2 noMark =>
    split at ran
    case h_2 => cases ran
    case h_1 single double pair =>
      split at ran
      case isTrue equals =>
        cases ran
        obtain ⟨u, rfl⟩ : ∃ u, t = byte '=' :: u := List.head?_eq_some_iff.mp equals
        have both : ∀ c ∈ [b, byte '='], c ≠ byte '\n' :=
          List.forall_mem_cons.mpr ⟨newline, by simp [byte]⟩
        exact .flat (u := [byte '=']) rfl (flat_pair pair).2 rfl both
          (by rw [reads, noMark, pair]; rfl)
      case isFalse =>
        cases ran
        exact .flat (u := []) rfl (flat_pair pair).1 rfl unbroken
          (by rw [reads, noMark, pair]; rfl)

theorem move_step {b : UInt8} {t : Text} {s : Step} (ran : step segment line b t = .ok s)
    (noComment : ¬(b = byte '/' ∧ t.head? = some (byte '*'))) : Move segment line (b :: t) s := by
  cases b using step_cases with
  | blank b blank =>
      rw [step_blank blank] at ran
      cases ran
      have unbroken : newlines [b] = 0 := newlines_eq_zero fun c member =>
        List.mem_singleton.mp member ▸ Text.ne_of_class blank (by decide)
      exact .skip rfl unbroken
  | newline =>
      cases ran
      exact .token rfl (stands_newline line t)
  | slash => exact move_slash (fun star => noComment ⟨rfl, star⟩) ran
  | quote =>
      obtain ⟨body, read, rfl⟩ := map_eq_ok ran
      exact move_string read
  | digit b digit =>
      rw [step_digit digit] at ran
      exact move_number digit ran
  | word b opens =>
      rw [step_word opens] at ran
      cases ran
      exact move_word opens
  | mark b newline reads => exact move_punctuation newline (reads _ _) (reads _ _ t ▸ ran)

/-! ## Whole sources -/

theorem tokens_commentPlaces (line : Int) (t : Text) :
    (commentPlaces line t).map Placed.token = (blockComment line t).tokens := by
  fun_induction blockComment line t with
  | case1 => rfl
  | case2 line b t closes => rw [commentPlaces, if_pos closes]; rfl
  | case3 line t closes ih =>
      rw [commentPlaces, if_neg closes, if_pos rfl, List.map_cons, ih]
      rfl
  | case4 line b t closes newline ih => rw [commentPlaces, if_neg closes, if_neg newline, ih]

theorem tokens_stepPlaces {b : UInt8} {t : Text} {s : Step}
    (ran : step segment line b t = .ok s) :
    (stepPlaces line b t s).map Placed.token = s.tokens := by
  unfold stepPlaces
  split
  case isTrue comment =>
    obtain ⟨rfl, star⟩ := comment
    obtain ⟨u, rfl⟩ := List.head?_eq_some_iff.mp star
    cases ran
    exact tokens_commentPlaces line u
  case isFalse =>
    rw [List.map_map]
    exact List.map_id _

theorem spread_comment (line : Int) (t : Text) :
    Spread segment line t (commentPlaces line t) (blockComment line t).line
      (blockComment line t).rest := by
  fun_induction blockComment line t with
  | case1 => exact .done
  | case2 line b t closes =>
      obtain ⟨rfl, slash⟩ := closes
      obtain ⟨u, rfl⟩ := List.head?_eq_some_iff.mp slash
      rw [commentPlaces, if_pos ⟨rfl, rfl⟩]
      exact .skip [byte '*', byte '/'] rfl .done
  | case3 line t closes ih =>
      rw [commentPlaces, if_neg closes, if_pos rfl]
      exact .token (stands_newline line t) ih
  | case4 line b t closes newline ih =>
      rw [commentPlaces, if_neg closes, if_neg newline]
      exact .skip [b] (newlines_eq_zero (by simpa using newline)) ih

theorem spread_step {b : UInt8} {t : Text} {s : Step} (ran : step segment line b t = .ok s) :
    Spread segment line (b :: t) (stepPlaces line b t s) s.line s.rest := by
  by_cases comment : b = byte '/' ∧ t.head? = some (byte '*')
  · rw [stepPlaces, if_pos comment]
    obtain ⟨rfl, star⟩ := comment
    obtain ⟨u, rfl⟩ := List.head?_eq_some_iff.mp star
    cases ran
    exact .skip [byte '/', byte '*'] rfl (spread_comment line u)
  · rw [stepPlaces, if_neg comment]
    cases move_step ran comment with
    | skip split unbroken =>
        rw [split]
        exact .skip _ unbroken .done
    | token split stands =>
        rw [split, List.map_singleton, front_append]
        exact .token stands .done

theorem placesFrom_cons {b : UInt8} {t : Text} {s : Step} (ran : step segment line b t = .ok s) :
    placesFrom segment line (b :: t) =
      (placesFrom segment s.line s.rest).map (stepPlaces line b t s ++ ·) := by
  rw [placesFrom]
  split
  · rename_i stop failed
    rw [ran] at failed
    cases failed
  · rename_i s' done
    rw [ran] at done
    cases done
    rfl

theorem spread_places {t : Text} {tokens : List Token}
    (read : tokensFrom segment line t = .ok tokens) :
    ∃ places line', placesFrom segment line t = .ok places ∧ places.map Placed.token = tokens ∧
      Spread segment line t places line' [] := by
  fun_induction tokensFrom segment line t generalizing tokens with
  | case1 line =>
      cases read
      exact ⟨[], line, by rw [placesFrom], rfl, .done⟩
  | case2 => cases read
  | case3 line b t s ran ih =>
      obtain ⟨others, inner, rfl⟩ := map_eq_ok read
      obtain ⟨places, line', eq, rfl, spread⟩ := ih inner
      refine ⟨stepPlaces line b t s ++ places, line', ?_, ?_, (spread_step ran).trans spread⟩
      · rw [placesFrom_cons ran, eq]
        rfl
      · rw [List.map_append, tokens_stepPlaces ran]

end Reading

end Lexer

/-- Every token of an accepted source stands at a place in it, in the order of the tokens, and its
line is one more than the number of newline bytes before that place, less those hidden in
strings before it. -/
theorem token_line {source : Text} {tokens : List Token} (accepted : lex source = .ok tokens) :
    ∃ places, Lexer.placesFrom Lexer.segmentTokens 1 source = .ok places ∧
      places.map Lexer.Placed.token = tokens ∧
      ∀ earlier p later, places = earlier ++ p :: later → ∃ before,
        source = before ++ p.own ++ p.after ∧ Lexer.Stands Lexer.segmentTokens p.token.line p ∧
        p.token.line + (earlier.map Lexer.Placed.hidden).sum = 1 + Lexer.newlines before := by
  obtain ⟨places, line', eq, same, spread⟩ := Lexer.spread_places accepted
  exact ⟨places, eq, same, fun earlier p later split => spread.line_eq split⟩

/-- A string with a newline byte in it, and a comment with a newline in it, before a name. -/
theorem token_line_after_string_and_comment :
    ∃ before, ("\"\\\n\" /*\n*/ x" : Text) = before ++ ("x" : Text) ∧
      (2 : Int) + 1 = 1 + Lexer.newlines before := by
  have accepted : lex "\"\\\n\" /*\n*/ x" = .ok [{ kind := .string, line := 1, text := "\n" },
      { kind := .newline, line := 1 }, { kind := .identifier, line := 2, text := "x" }] := by cbv
  have read : Lexer.placesFrom Lexer.segmentTokens 1 "\"\\\n\" /*\n*/ x" = .ok
      [⟨{ kind := .string, line := 1, text := "\n" }, "\"\\\n\"", " /*\n*/ x"⟩,
        ⟨{ kind := .newline, line := 1 }, "\n", "*/ x"⟩,
        ⟨{ kind := .identifier, line := 2, text := "x" }, "x", []⟩] := by cbv
  obtain ⟨places, eq, _, lines⟩ := token_line accepted
  cases read.symm.trans eq
  obtain ⟨before, split, _, line⟩ := lines [_, _] _ [] rfl
  exact ⟨before, split.trans (List.append_nil _), line⟩

/-- The name after a string with an escaped newline byte stands on the second line of the source,
and its line is the first. -/
theorem token_line_behind_escaped_newline :
    ∃ places p before, lex "\"\\\n\" x" = .ok (places.map Lexer.Placed.token) ∧
      Lexer.placesFrom Lexer.segmentTokens 1 "\"\\\n\" x" = .ok places ∧ p ∈ places ∧
      ("\"\\\n\" x" : Text) = before ++ p.own ++ p.after ∧
      p.token.line = 1 ∧ 1 + Lexer.newlines before = 2 := by
  refine ⟨[⟨{ kind := .string, line := 1, text := "\n" }, "\"\\\n\"", " x"⟩,
      ⟨{ kind := .identifier, line := 1, text := "x" }, "x", []⟩], _, "\"\\\n\" ", ?_, ?_,
    List.mem_cons_of_mem _ List.mem_cons_self, ?_, rfl, ?_⟩
  · cbv
  · cbv
  · decide
  · decide

end EplLang
