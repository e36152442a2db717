import EplLang.Proofs.Holding
import EplLang.Proofs.Identifier
import EplLang.Proofs.Parsed

/-!
# Parsed programs do not get stuck

A program given as a tree may hold any node anywhere, and then the evaluator stops
because it cannot go on. A program that comes from a source text never stops for
such a reason: everything the parser makes has a meaning (`EplLang.Proofs.Parsed`),
and function bodies keep theirs on their way through names, containers, calls and
imports (`EplLang.Proofs.Holding`). What is left are the causes of run time, and
the texts of imported files, which are read at run time and may be no programs.
-/

set_option autoImplicit false

namespace EplLang

/-! ## Faults of texts -/

/-- Causes that concern the text of a program. -/
def Cause.OfText : Cause → Prop
  | .unexpectedCharacter _ | .illegalToken .. => True
  | _ => False

/-- The ways in which the reading of a text stops. -/
def Stop.OfText (e : Stop) : Prop := e = .outOfFuel ∨ ∃ f : Fault, e = .fault f ∧ f.cause.OfText

namespace Lexer

/-- The lexer stops at a character that cannot stand where it is. -/
def Unexpected (e : Stop) : Prop := ∃ line shown, e = unexpected line shown

theorem Unexpected.ofText {e : Stop} (stopped : Unexpected e) : e.OfText := by
  obtain ⟨line, shown, rfl⟩ := stopped
  exact .inr ⟨_, rfl, trivial⟩

theorem map_eq_error {α β : Type} {f : α → β} {x : Except Stop α} {e : Stop}
    (failed : x.map f = .error e) : x = .error e := by
  cases x with
  | error e' =>
      cases failed
      rfl
  | ok a => cases failed

theorem number_error {line : Int} {t : Text} {e : Stop} (failed : number line t = .error e) :
    Unexpected e := by
  unfold number at failed
  split at failed
  · cases failed
    exact ⟨_, _, rfl⟩
  · split at failed
    · cases failed
      exact ⟨_, _, rfl⟩
    · cases failed

theorem punctuation_error {line : Int} {b : UInt8} {t : Text} {e : Stop}
    (failed : punctuation line b t = .error e) : Unexpected e := by
  unfold punctuation at failed
  split at failed
  · cases failed
  split at failed
  · split at failed <;> cases failed
  · cases failed
    exact ⟨_, _, rfl⟩

section Segments

variable {segment : Int → Text → Except Stop (List Token)}
  (segments : ∀ line t e, segment line t = .error e → Unexpected e)
include segments

theorem string_error {line : Int} {inside : Option Text} {t : Text} {e : Stop}
    (failed : string segment line inside t = .error e) : Unexpected e := by
  fun_induction string segment line inside t with
  | case4 _ _ _ stopped =>
      cases failed
      exact segments _ _ _ stopped
  | case5 _ _ _ _ _ ih => exact ih (map_eq_error failed)
  | case6 _ _ _ _ _ ih => exact ih failed
  | case7 => cases failed
  | case10 _ _ _ _ ih => exact ih (map_eq_error failed)
  | case11 _ _ _ _ ih => exact ih failed
  | case12 _ _ _ _ _ _ ih => exact ih (map_eq_error failed)
  | _ =>
      cases failed
      exact ⟨_, _, rfl⟩

theorem step_error {line : Int} {b : UInt8} {t : Text} {e : Stop}
    (failed : step segment line b t = .error e) : Unexpected e := by
  cases b using step_cases with
  | blank b blank =>
      rw [step_blank blank] at failed
      cases failed
  | newline => cases failed
  | slash =>
      rw [step_slash] at failed
      split_ifs at failed
  | quote => exact string_error segments (map_eq_error failed)
  | digit b digit =>
      rw [step_digit digit] at failed
      exact number_error failed
  | word b opens =>
      rw [step_word opens] at failed
      cases failed
  | mark b newline reads =>
      rw [reads] at failed
      exact punctuation_error failed

theorem tokensFrom_error {line : Int} {t : Text} {e : Stop}
    (failed : tokensFrom segment line t = .error e) : Unexpected e := by
  fun_induction tokensFrom segment line t with
  | case1 => cases failed
  | case2 line b t stop stopped =>
      cases failed
      exact step_error segments stopped
  | case3 line b t s stepped ih => exact ih (map_eq_error failed)

end Segments

end Lexer

theorem lex_error {source : Text} {e : Stop} (failed : lex source = .error e) :
    Lexer.Unexpected e := by
  refine Lexer.tokensFrom_error (fun line t e stopped => ?_) failed
  exact Lexer.tokensFrom_error (fun _ _ _ none => by cases none) stopped

/-! ## Places of segments -/

/-- The segments of a token have places in its text, and so have those of the tokens in them. -/
inductive Token.WellPlaced : Token → Prop where
  | intro {t : Token} : t.Placed → (∀ part ∈ t.parts, ∀ u ∈ part.2, WellPlaced u) → WellPlaced t

theorem Token.WellPlaced.of_parts_nil {t : Token} (none : t.parts = []) : t.WellPlaced := by
  refine .intro ?_ fun part member => ?_
  · unfold Token.Placed
    rw [none]
    exact List.pairwise_singleton _ _
  · rw [none] at member
    cases member

namespace Lexer

section Segments

variable {segment : Int → Text → Except Stop (List Token)}
  (segments : ∀ line t tokens, segment line t = .ok tokens → ∀ u ∈ tokens, u.WellPlaced)
  {line : Int}

/-- With one more byte in front, every place is one further on. -/
theorem push_wellPlaced (b : UInt8) {body : StringBody} (placed : (body.token line).WellPlaced) :
    ((body.push b).token line).WellPlaced := by
  obtain ⟨places, inside⟩ := placed
  refine .intro ?_ fun part member => ?_
  · have moved : ((body.parts.map Prod.fst ++ [body.text.length]).map (· + 1)).Pairwise (· ≤ ·) :=
      List.pairwise_map.mpr (List.Pairwise.imp Nat.succ_le_succ places)
    simpa [Token.Placed, StringBody.token, StringBody.push, Function.comp_def] using moved
  · obtain ⟨old, there, rfl⟩ := List.mem_map.mp member
    exact inside old there

theorem pushPart_wellPlaced {tokens : List Token} (own : ∀ u ∈ tokens, u.WellPlaced)
    {body : StringBody} (placed : (body.token line).WellPlaced) :
    ((body.pushPart tokens).token line).WellPlaced := by
  obtain ⟨places, inside⟩ := placed
  refine .intro (List.pairwise_cons.mpr ⟨fun _ _ => Nat.zero_le _, places⟩) fun part member => ?_
  rcases List.mem_cons.mp member with rfl | there
  · exact own
  · exact inside part there

include segments

theorem string_wellPlaced {inside : Option Text} {t : Text} {body : StringBody}
    (read : string segment line inside t = .ok body) : (body.token line).WellPlaced := by
  fun_induction string segment line inside t generalizing body with
  | case1 | case2 | case3 | case4 | case8 | case9 => cases read
  | case5 inside t tokens own _ ih =>
      obtain ⟨inner, goesOn, rfl⟩ := map_eq_ok read
      exact pushPart_wellPlaced (segments _ _ _ own) (ih goesOn)
  | case6 _ _ _ _ _ ih => exact ih read
  | case7 =>
      cases read
      exact .of_parts_nil rfl
  | case10 _ _ _ _ ih =>
      obtain ⟨inner, goesOn, rfl⟩ := map_eq_ok read
      exact push_wellPlaced _ (ih goesOn)
  | case11 _ _ _ _ ih => exact ih read
  | case12 _ _ _ _ _ _ ih =>
      obtain ⟨inner, goesOn, rfl⟩ := map_eq_ok read
      exact push_wellPlaced _ (ih goesOn)

theorem tokensFrom_wellPlaced {t : Text} {tokens : List Token}
    (read : tokensFrom segment line t = .ok tokens) : ∀ u ∈ tokens, u.WellPlaced := by
  fun_induction tokensFrom segment line t generalizing tokens with
  | case1 =>
      cases read
      exact fun _ member => by cases member
  | case2 => cases read
  | case3 line b t s stepped ih =>
      obtain ⟨others, goesOn, rfl⟩ := map_eq_ok read
      refine List.forall_mem_append.mpr ⟨fun u member => ?_, ih goesOn⟩
      rcases mem_tokens_step stepped member with ⟨_, name, rfl⟩ | ⟨_, body, string, rfl⟩ |
        ⟨kind, line', rfl, _⟩
      · exact .of_parts_nil (Token.parts_ofWord line name)
      · exact string_wellPlaced segments string
      · exact .of_parts_nil rfl

end Segments

end Lexer

/-- The lexer puts the segments of strings where the parser looks for them. -/
theorem lex_wellPlaced {source : Text} {tokens : List Token} (lexed : lex source = .ok tokens) :
    ∀ u ∈ tokens, u.WellPlaced := by
  refine Lexer.tokensFrom_wellPlaced (fun line t tokens read => ?_) lexed
  refine Lexer.tokensFrom_wellPlaced (fun line t tokens none => ?_) read
  cases none
  exact fun _ member => by cases member

theorem Parser.Cursor.InSight.wellPlaced {c : Cursor} {t : Token} (seen : Cursor.InSight c t)
    (placed : ∀ u ∈ c.tokens, u.WellPlaced) : t.WellPlaced := by
  induction seen with
  | ahead ahead =>
      rcases ahead with member | rfl
      · exact placed _ member
      · exact .of_parts_nil rfl
  | @segment c string t part site member own _ ih =>
      obtain ⟨_, inside⟩ := placed string member
      exact ih fun u there => inside part own u (List.mem_filter.mp there).1

/-- Tokens of a source are refused as such, or are too deep for a bound. -/
theorem Parser.Refusal.ofText {source : Text} {tokens : List Token}
    (lexed : lex source = .ok tokens) {site : Nat} {e : Stop}
    (refusal : Parser.Refusal (Parser.start site tokens) e) : e.OfText := by
  cases refusal with
  | illegal complaint _ => exact .inr ⟨_, rfl, trivial⟩
  | misplaced seen bad =>
      obtain ⟨placed, _⟩ := seen.wellPlaced fun u member =>
        lex_wellPlaced lexed u (List.mem_filter.mp member).1
      exact absurd placed bad
  | outOfFuel => exact .inl rfl

/-! ## Texts -/

/-- The program of an accepted text can be executed. -/
theorem parseSource_executable {site next : Nat} {source : Text} {body : Block}
    (parsed : parseSource site source = .ok (body, next)) : body.Executable := by
  unfold parseSource at parsed
  cases lexed : lex source with
  | error e =>
      rw [lexed] at parsed
      cases parsed
  | ok tokens =>
      rw [lexed] at parsed
      have spec := Parser.parseFrom_spec site tokens
      have accepted : Parser.parseFrom site tokens = .ok (body, next) := parsed
      rw [accepted] at spec
      exact spec

theorem parseSource_error {site : Nat} {source : Text} {e : Stop}
    (failed : parseSource site source = .error e) : e.OfText := by
  unfold parseSource at failed
  cases lexed : lex source with
  | error e' =>
      rw [lexed] at failed
      cases failed
      exact (lex_error lexed).ofText
  | ok tokens =>
      rw [lexed] at failed
      have spec := Parser.parseFrom_spec site tokens
      have refused : Parser.parseFrom site tokens = .error e := failed
      rw [refused] at spec
      exact spec.ofText lexed

/-! ## The grammar of parsed programs -/

/-- A fault that reading the text of an importable file gives. -/
def Fault.Imported (files : Text → Option Text) (f : Fault) : Prop :=
  f.cause.OfText ∧
    ∃ path source site, files path = some source ∧ parseSource site source = .error (.fault f)

/-- Nodes with a meaning. Work stops for a cause of run time or for one of an
imported text. -/
def Grammar.meaningful (files : Text → Option Text) : Grammar where
  expr := Node.Evaluable
  stmt st := st.node.Executable
  stop e := e = .outOfFuel ∨ ∃ f : Fault, e = .fault f ∧ (f.cause.Proper ∨ f.Imported files)

theorem Grammar.meaningful_laws (files : Text → Option Text) :
    (Grammar.meaningful files).Laws where
  fault line _ proper := .inr ⟨_, rfl, .inl proper⟩
  outOfFuel := .inl rfl
  parts evaluable member := by
    obtain ⟨_, parts, _⟩ := evaluable
    exact parts _ member
  meaning evaluable := by
    obtain ⟨meaning, _, _⟩ := evaluable
    exact .inl meaning
  body evaluable member := by
    obtain ⟨_, _, statements⟩ := evaluable
    exact statements _ member
  stmtParts executable member := by
    obtain ⟨_, parts, _⟩ := executable
    exact parts _ member
  stmtBlocks executable member inside := by
    obtain ⟨_, _, blocks⟩ := executable
    exact blocks _ member _ inside
  stmtMeaning executable := by
    obtain ⟨meaning, _, _⟩ := executable
    exact .inl meaning
  native site operation := by
    have leaf : (Node.native operation).Executable :=
      .leaf trivial rfl fun _ member => by cases member
    have value : (Node.native operation).Evaluable :=
      .intro trivial (fun _ member => by cases member) fun _ member => by cases member
    have given : (Node.give (.native operation)).Executable :=
      .leaf trivial rfl (List.forall_mem_singleton.mpr value)
    refine .function site _ ?_
    cases operation with
    | log | sleep => exact List.forall_mem_singleton.mpr leaf
    | _ => exact List.forall_mem_singleton.mpr given

theorem Grammar.meaningful_admits (files : Text → Option Text) :
    (holding (.meaningful files)).Admits files := by
  intro _ path source file
  refine ⟨fun site body next st parsed => parseSource_executable parsed st, fun site e failed => ?_⟩
  rcases parseSource_error failed with rfl | ⟨f, rfl, text⟩
  · exact .inl rfl
  · exact .inr ⟨f, rfl, .inr ⟨text, path, source, site, file, failed⟩⟩

/-! ## Runs -/

/-- The states met by runs of source texts one after another from a fresh state. -/
inductive Session : Machine → Prop where
  | start (input : Text) : Session (Machine.start input)
  | run {fuel : Nat} {s : Surroundings} {source : Text} {body : Block} {site : Nat}
      {m n : Machine} : Session m → parseSource m.site source = .ok (body, site) →
      Meets fuel s body { m with site := site } n → Session n

theorem Session.fits {m : Machine} (session : Session m) (files : Text → Option Text) :
    m.Fits (.meaningful files) := by
  induction session generalizing files with
  | start input => exact .start (Grammar.meaningful_laws files) input
  | @run fuel s source body site m n _ parsed meets ih =>
      have started : Machine.Fits (.meaningful s.files) { m with site := site } :=
        (ih s.files).same rfl rfl rfl rfl
      have after := meets.state (holding_laws (Grammar.meaningful_laws s.files))
        (Grammar.meaningful_admits s.files) (parseSource_executable parsed) started
      exact after.imp fun _ _ _ _ evaluable => evaluable

/-- A fault of run time is not of the classes that concern texts. -/
theorem Cause.Proper.faultClass {cause : Cause} (proper : cause.Proper) :
    cause.faultClass ≠ .syntactic ∧ cause.faultClass ≠ .character := by
  cases cause <;> first | exact absurd proper id | exact ⟨nofun, nofun⟩

/-- A loop takes a break only if there is one. -/
theorem roundEnds_takes {d : Eval.Depth} {m n : Machine} {ends : Bool}
    (ran : Eval.roundEnds d m = .ok ends n) : n = m ∨ m.breaks = n.breaks + 1 := by
  rcases roundEnds_cases ran with same | ⟨some, rfl⟩
  · exact .inl same
  · exact .inr (Nat.sub_add_cancel some).symm

/-- A call takes a value only if one is on its way. -/
theorem takeReturn_takes {depth : Nat} {m n : Machine} {v : Value}
    (ran : Eval.takeReturn depth m = .ok v n) : n = m ∨ m.returns = v :: n.returns := by
  rcases takeReturn_cases ran with ⟨_, _, same⟩ | ⟨rest, pending, rfl⟩
  · exact .inl same
  · exact .inr pending

/-- Running an accepted text is running its program. -/
theorem runSource_eq {m : Machine} {source : Text} {body : Block} {site : Nat}
    (parsed : parseSource m.site source = .ok (body, site)) (fuel : Nat) (s : Surroundings) :
    runSource fuel s source m = Block.run fuel s body { m with site := site } :=
  Run.bind_of_ok (load_of_parsed parsed)

/-- **Parsed programs do not get stuck.** An accepted text is a program whose nodes
all have a meaning where they stand. Run in a state that a session of such texts
has led to, with any files, input and clock, it stops only for a cause of run time
or because the text of a file that it imports is no program; only the latter is a
fault of syntax or of a character. At every moment all values in the machine are
scalars, containers of the store with a value under each key that can be looked
up, or functions whose bodies have a meaning; so is the value of any expression.
And a break or a returned value is only taken where there is one. -/
theorem parsed_not_stuck {m : Machine} (session : Session m) {source : Text} {body : Block}
    {site : Nat} (parsed : parseSource m.site source = .ok (body, site)) (fuel : Nat)
    (s : Surroundings) :
    body.Executable ∧
    (∀ e n, runSource fuel s source m = .error e n →
      e ≠ .malformed ∧ e ≠ .misplaced ∧ ∀ f, e = .fault f →
        (f.cause.Proper ∧ f.cause.faultClass ≠ .syntactic ∧ f.cause.faultClass ≠ .character) ∨
          f.Imported s.files) ∧
    ∀ n, Meets fuel s body { m with site := site } n →
      n.Fits (.meaningful s.files) ∧ (∀ ref, Container.Formed (n.store.get ref).entries) ∧
      (∀ e v k, Node.Evaluable e → (calls fuel s).eval e n = .ok v k →
        v.Fits (.meaningful s.files) k.store) ∧
      (∀ d ends k, Eval.roundEnds d n = .ok ends k → k = n ∨ n.breaks = k.breaks + 1) ∧
      ∀ depth v k, Eval.takeReturn depth n = .ok v k → k = n ∨ n.returns = v :: k.returns := by
  have laws := holding_laws (Grammar.meaningful_laws s.files)
  have admits := Grammar.meaningful_admits s.files
  have executable := parseSource_executable parsed
  have started : Machine.Fits (.meaningful s.files) { m with site := site } :=
    (session.fits s.files).same rfl rfl rfl rfl
  refine ⟨executable, fun e n failed => ?_, fun n meets => ⟨?_, ?_, ?_, ?_, ?_⟩⟩
  · have follows : (holding (.meaningful s.files)).Follows .statement (fun _ _ => True)
        (Block.run fuel s body) (Block.run fuel s body) { m with site := site } :=
      Discipline.run_follows laws admits started executable
    have outcome := follows.2
    rw [← runSource_eq parsed, failed] at outcome
    rcases outcome.2 with rfl | ⟨f, rfl, cause⟩
    · exact ⟨fun same => (by cases same), fun same => (by cases same),
        fun f same => (by cases same)⟩
    · refine ⟨fun same => (by cases same), fun same => (by cases same), fun f' same => ?_⟩
      cases same
      exact cause.imp_left fun proper => ⟨proper, proper.faultClass⟩
  · exact meets.state laws admits executable started
  · exact fun ref => Container.formed_entries _
  · intro e v k evaluable ran
    have state := meets.state laws admits executable started
    have follows : (holding (.meaningful s.files)).Follows .expression (Value.Fits _)
        ((calls fuel s).eval e) ((calls fuel s).eval e) n :=
      Discipline.eval_follows laws admits state evaluable
    exact (follows.of_ran ran).2
  · exact fun d ends k ran => roundEnds_takes ran
  · exact fun depth v k ran => takeReturn_takes ran

/-- A text that defines a function and calls it with the function itself: the
program stops inside the call, for a cause of run time. -/
theorem parsed_not_stuck_inside_call :
    let source : Text := "f=(x)=>x.y f(f)"
    let body : Block :=
      [⟨1, .newLine⟩,
        ⟨1, .bind "f" (.function 7 ["x"] [⟨1, .give (.index (.name "x") [Node.text "y"])⟩])⟩,
        ⟨1, .call (.name "f") [.name "f"]⟩]
    let f : Fault := ⟨1, .notIndexable .function⟩
    parseSource 7 source = .ok (body, 8) ∧
      ∃ n, runSource 9 {} source (Machine.start []) = .error (.fault f) n ∧
        (f.cause.Proper ∧ f.cause.faultClass ≠ .syntactic ∧ f.cause.faultClass ≠ .character ∨
          f.Imported fun _ => none) := by
  intro source body f
  have parsed : parseSource (Machine.start []).site source = .ok (body, 8) := by cbv
  obtain ⟨n, stopped⟩ : ∃ n, Block.run 9 {} body { Machine.start [] with site := 8 } =
      .error (.fault f) n := ⟨_, rfl⟩
  have ran : runSource 9 {} source (Machine.start []) = .error (.fault f) n :=
    (runSource_eq parsed 9 {}).trans stopped
  have law := (parsed_not_stuck (.start []) parsed 9 {}).2.1
  exact ⟨parsed, n, ran, (law _ n ran).2.2 f rfl⟩

end EplLang
