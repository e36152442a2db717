import EplLang.Proofs.Walk.Expression
import EplLang.Proofs.Moment
import EplLang.Proofs.Spelling

/-!
# Strings with segments

A string with segments means its texts and the values of its segments joined. On the way from the
source to that meaning the lexer keeps the text of the whole string with the places of the segments
in it, and the parser cuts the text there again.

`Lexer.Literal` is a string as it is written: texts with escapes, and between them segments whose
source the lexer can read. Everything that the lexer reads as a string is one of these
(`Lexer.exists_literal`). The places are the lengths of the texts before them added up, so each cut
gives back the text that was there (`Parser.interpolation_of_fills`). A sum with a string on its
left never fails and shows what is on its right at once, so the tree of the whole string evaluates
its segments in order and does nothing else (`Eval.eval_joined`).
-/

set_option autoImplicit false

namespace EplLang

open Text (byte)

/-! ## How strings are written -/

namespace Lexer

/-- The text that a part of a string without segments stands for. A quote, a newline and an opening
brace cannot stand there by themselves, and something is after every backslash. -/
def unescape : Text → Option Text
  | [] => some []
  | b :: t =>
    if b = byte '\\' then
      match t with
      | [] => none
      | c :: u => (unescape u).map ((if c = byte 'n' then byte '\n' else c) :: ·)
    else if b = byte '"' ∨ b = byte '\n' ∨ b = byte '{' then none
    else (unescape t).map (b :: ·)

theorem unescape_plain {b : UInt8} {t : Text} (quote : b ≠ byte '"') (newline : b ≠ byte '\n')
    (escape : b ≠ byte '\\') (brace : b ≠ byte '{') :
    unescape (b :: t) = (unescape t).map (b :: ·) := by
  rw [unescape.eq_def]
  simp only [quote, newline, escape, brace, if_false, or_self]

theorem unescape_escape (c : UInt8) (t : Text) :
    unescape (byte '\\' :: c :: t) =
      (unescape t).map ((if c = byte 'n' then byte '\n' else c) :: ·) := by
  rw [unescape.eq_def]
  rfl

/-- A part of a string without segments: as it is written, and the text it stands for. -/
structure Fragment where
  raw : Text
  text : Text
  unescaped : unescape raw = some text

namespace Fragment

def empty : Fragment := ⟨[], [], rfl⟩

/-- A fragment with a byte in front that stands for itself. -/
def plain (b : UInt8) (quote : b ≠ byte '"') (newline : b ≠ byte '\n') (escape : b ≠ byte '\\')
    (brace : b ≠ byte '{') (f : Fragment) : Fragment where
  raw := b :: f.raw
  text := b :: f.text
  unescaped := by rw [unescape_plain quote newline escape brace, f.unescaped]; rfl

/-- A fragment with an escaped byte in front. -/
def escape (c : UInt8) (f : Fragment) : Fragment where
  raw := byte '\\' :: c :: f.raw
  text := (if c = byte 'n' then byte '\n' else c) :: f.text
  unescaped := by rw [unescape_escape, f.unescaped]; rfl

end Fragment

/-- A segment of a string on a line, and the part after it up to the next segment. -/
structure Hole (line : Int) where
  source : Text
  tokens : List Token
  after : Fragment
  braceless : Braceless source
  lexed : segmentTokens line source = .ok tokens

/-- A string on a line. -/
structure Literal (line : Int) where
  first : Fragment
  holes : List (Hole line)

variable {line : Int}

/-- A segment as it is written, with what follows it. -/
def Hole.written (h : Hole line) : Text :=
  byte '{' :: (h.source ++ byte '}' :: h.after.raw)

/-- The places of segments and their tokens, the first one at an offset. -/
def Hole.parts : Nat → List (Hole line) → List (Nat × List Token)
  | _, [] => []
  | offset, h :: holes => (offset, h.tokens) :: Hole.parts (offset + h.after.text.length) holes

/-- The texts after segments, put together. -/
def Hole.texts (holes : List (Hole line)) : Text := holes.flatMap (·.after.text)

namespace Literal

/-- A string as it is written between the quotes. -/
def written (l : Literal line) : Text := l.first.raw ++ l.holes.flatMap Hole.written

def text (l : Literal line) : Text := l.first.text ++ Hole.texts l.holes

def parts (l : Literal line) : List (Nat × List Token) := Hole.parts l.first.text.length l.holes

/-- A string as it is read, with some text after the closing quote. -/
def body (l : Literal line) (rest : Text) : StringBody :=
  ⟨l.text, l.parts, rest⟩

end Literal

namespace Hole

theorem parts_add (offset more : Nat) (holes : List (Hole line)) :
    parts (offset + more) holes = (parts offset holes).map fun part => (part.1 + more, part.2) := by
  induction holes generalizing offset with
  | nil => rfl
  | cons h holes ih =>
      have next : offset + more + h.after.text.length = offset + h.after.text.length + more := by
        omega
      rw [parts, next, ih]
      rfl

/-- Places come in order. -/
theorem le_of_mem_parts {offset : Nat} {holes : List (Hole line)} {part : Nat × List Token}
    (member : part ∈ parts offset holes) :
    offset ≤ part.1 ∧ part.1 ≤ offset + (texts holes).length := by
  induction holes generalizing offset with
  | nil => cases member
  | cons h holes ih =>
      have length : (texts (h :: holes)).length = h.after.text.length + (texts holes).length := by
        simp [texts]
      rcases List.mem_cons.mp member with rfl | later
      · simp
      · have bounds := ih later
        omega

theorem parts_sorted (offset : Nat) (holes : List (Hole line)) :
    ((parts offset holes).map Prod.fst).Pairwise (· ≤ ·) := by
  induction holes generalizing offset with
  | nil => exact .nil
  | cons h holes ih =>
      refine List.Pairwise.cons (fun place member => ?_) (ih _)
      obtain ⟨part, later, rfl⟩ := List.mem_map.mp member
      have bounds := le_of_mem_parts later
      omega

end Hole

/-! ## Reading strings -/

section Reading

variable {rest t : Text} {body : StringBody}

theorem body_push (b : UInt8) (l : Literal line) {first : Fragment}
    (text : first.text = b :: l.first.text) :
    StringBody.push b (l.body rest) = Literal.body ⟨first, l.holes⟩ rest := by
  simp [StringBody.push, Literal.body, Literal.text, Literal.parts, text,
    Hole.parts_add]

theorem body_pushPart (h : Hole line) (holes : List (Hole line)) :
    StringBody.pushPart h.tokens (Literal.body ⟨h.after, holes⟩ rest) =
      Literal.body ⟨.empty, h :: holes⟩ rest := by
  simp [StringBody.pushPart, Literal.body, Literal.text, Literal.parts, Fragment.empty,
    Hole.texts, Hole.parts]

/-- When a segment is open, what is read is the rest of its source, and then the string goes on. -/
theorem exists_segment {seen : Text} (read : string segmentTokens line (some seen) t = .ok body) :
    ∃ source tokens left inner, Braceless source ∧
      segmentTokens line (seen.reverse ++ source) = .ok tokens ∧ t = source ++ byte '}' :: left ∧
      string segmentTokens line none left = .ok inner ∧ body = inner.pushPart tokens := by
  induction t generalizing seen with
  | nil => cases read
  | cons b t ih =>
      by_cases opening : b = byte '{'
      · rw [string.eq_def] at read
        simp only [opening, if_true] at read
        cases read
      by_cases closing : b = byte '}'
      · subst closing
        cases lexed : segmentTokens line seen.reverse with
        | error stop =>
            rw [string.eq_def] at read
            simp only [opening, if_false, if_true, lexed] at read
            cases read
        | ok tokens =>
            rw [string_close lexed] at read
            obtain ⟨inner, goesOn, rfl⟩ := map_eq_ok read
            exact ⟨[], tokens, t, inner, by decide, by rwa [List.append_nil], rfl, goesOn, rfl⟩
      · rw [string_inside opening closing] at read
        obtain ⟨source, tokens, left, inner, ⟨noOpening, noClosing⟩, lexed, rfl, goesOn, rfl⟩ :=
          ih read
        refine ⟨b :: source, tokens, left, inner, ⟨?_, ?_⟩, ?_, rfl, goesOn, rfl⟩
        · exact List.not_mem_cons_of_ne_of_not_mem (Ne.symm opening) noOpening
        · exact List.not_mem_cons_of_ne_of_not_mem (Ne.symm closing) noClosing
        · rwa [List.reverse_cons, List.append_assoc] at lexed

/-- **What is read as a string is written as one.** The induction is on the length of the text,
since a segment is taken as a whole. -/
theorem exists_literal {t : Text} {body : StringBody}
    (read : string segmentTokens line none t = .ok body) :
    ∃ l : Literal line, t = l.written ++ byte '"' :: body.rest ∧ body = l.body body.rest := by
  match t with
  | [] => cases read
  | b :: t =>
      by_cases quote : b = byte '"'
      · subst quote
        rw [string_quote] at read
        cases read
        exact ⟨⟨.empty, []⟩, rfl, rfl⟩
      by_cases newline : b = byte '\n'
      · rw [string.eq_def] at read
        simp only [newline, if_neg (show byte '\n' ≠ byte '"' by decide), if_true] at read
        cases read
      by_cases escape : b = byte '\\'
      · subst escape
        cases t with
        | nil => cases read
        | cons c t =>
            rw [string_escape] at read
            obtain ⟨inner, goesOn, rfl⟩ := map_eq_ok read
            obtain ⟨l, rfl, same⟩ := exists_literal goesOn
            refine ⟨⟨l.first.escape c, l.holes⟩, rfl, ?_⟩
            rw [same]
            exact body_push _ l rfl
      by_cases brace : b = byte '{'
      · subst brace
        rw [string_open] at read
        -- more than one byte is taken here, so induction on the text itself would not do
        obtain ⟨source, tokens, left, inner, braceless, lexed, rfl, goesOn, rfl⟩ :=
          exists_segment read
        obtain ⟨l, rfl, same⟩ := exists_literal goesOn
        refine ⟨⟨.empty, ⟨source, tokens, l.first, braceless, lexed⟩ :: l.holes⟩, ?_, ?_⟩
        · simp [Literal.written, Hole.written, Fragment.empty, StringBody.pushPart]
        · rw [same]
          exact body_pushPart ⟨source, tokens, l.first, braceless, lexed⟩ l.holes
      · rw [string_plain quote newline escape brace] at read
        obtain ⟨inner, goesOn, rfl⟩ := map_eq_ok read
        obtain ⟨l, rfl, same⟩ := exists_literal goesOn
        refine ⟨⟨l.first.plain b quote newline escape brace, l.holes⟩, rfl, ?_⟩
        rw [same]
        exact body_push _ l rfl
termination_by t.length

end Reading

end Lexer

/-! ## The tree of a string -/

/-- Something with expressions and texts added to it one after another. -/
def Node.joined : Node → List (Node × Text) → Node
  | before, [] => before
  | before, (e, after) :: rest =>
    joined (.arithmetic (.arithmetic before .plus e) .plus (.text after)) rest

namespace Parser

open Lexer (Hole Literal)

variable {line : Int} {g : Grammar}

/-- The tokens of segments are expressions, each up to its last token. The numbers of function
literals go on from one segment to the next. -/
inductive Fills (g : Grammar) : Nat → List (Hole line) → List (Node × Text) → Nat → Prop where
  | nil {site : Nat} : Fills g site [] [] site
  | cons {site site' : Nat} {h : Hole line} {holes : List (Hole line)} {e : Node} {d : Cursor}
      {es : List (Node × Text)} :
      g.expression (start site h.tokens) = .ok (e, d) → (Cursor.peek d 0).kind = .endOfInput →
      Fills g d.site holes es site' → Fills g site (h :: holes) ((e, h.after.text) :: es) site'

theorem slice_between (seen text rest : Text) :
    slice (seen ++ (text ++ rest)) seen.length (seen.length + text.length) = pure text := by
  have inside : seen.length + text.length ≤ (seen ++ (text ++ rest)).length := by
    simp only [List.length_append]
    omega
  rw [slice, if_pos ⟨Nat.le_add_right _ _, inside⟩]
  simp [← List.append_assoc]

theorem lead_none (seen rest : Text) :
    lead (seen ++ rest) seen.length none = pure (.text seen) := by
  have cut := slice_between [] seen rest
  rw [List.length_nil, Nat.zero_add, List.nil_append] at cut
  rw [lead, cut, pure_bind]

/-- The text before the first segment is what comes before it. -/
theorem interpolation_none (seen rest : Text) (tokens : List Token)
    (parts : List (Nat × List Token)) :
    interpolation g (seen ++ rest) none ((seen.length, tokens) :: parts) =
      interpolation g (seen ++ rest) (some (.text seen)) ((seen.length, tokens) :: parts) := by
  rw [interpolation, interpolation, lead_none, lead]

/-- The text after a segment ends where the next one is, or with the whole text. -/
theorem next_place (offset : Nat) (holes : List (Hole line)) :
    ((Hole.parts offset holes).head?.map Prod.fst).getD (offset + (Hole.texts holes).length) =
      offset := by
  cases holes <;> rfl

/-- Each cut gives the text that is after its segment. -/
theorem interpolation_of_fills {site site' : Nat} {holes : List (Hole line)}
    {es : List (Node × Text)} (fills : Fills g site holes es site') (seen : Text) (before : Node)
    (c : Cursor) :
    interpolation g (seen ++ Hole.texts holes) (some before) (Hole.parts seen.length holes)
      { c with site } = .ok (before.joined es, { c with site := site' }) := by
  induction fills generalizing seen before with
  | nil => rfl
  | @cons site site' h holes e d es read ends _ ih =>
      have texts : Hole.texts (h :: holes) = h.after.text ++ Hole.texts holes := rfl
      have length : (seen ++ (h.after.text ++ Hole.texts holes)).length =
          seen.length + h.after.text.length + (Hole.texts holes).length := by
        simp [Nat.add_assoc]
      have value : segment g h.tokens { c with site } = .ok (e, { c with site := d.site }) := by
        rw [segment_of_ok read, if_neg (not_not_intro ends)]
      have goesOn := ih (seen ++ h.after.text)
        (.arithmetic (.arithmetic before .plus e) .plus (.text h.after.text))
      rw [List.append_assoc, List.length_append] at goesOn
      rw [Hole.parts, interpolation, texts, length, next_place, lead, slice_between]
      simp only [pure_bind]
      rw [bind_of_ok value]
      exact goesOn

/-- The tree of a string is its texts and expressions joined. -/
theorem atom_of_fills {l : Literal line} {c : Cursor} {rest : List Token} {site : Nat}
    {es : List (Node × Text)} (tokens : c.tokens =
      { kind := .interpolated, line, text := l.text, parts := l.parts } :: rest)
    (fills : Fills g c.site l.holes es site) (some : l.holes ≠ []) :
    atom g c = .ok (.joined (.text l.first.text) es, { c with tokens := rest, site }) := by
  obtain ⟨first, holes⟩ := l
  cases holes with
  | nil => exact absurd rfl some
  | cons h holes =>
      obtain ⟨_, last, start⟩ := c
      subst tokens
      have steps : atom g ⟨⟨.interpolated, line, Literal.text ⟨first, h :: holes⟩,
          Literal.parts ⟨first, h :: holes⟩⟩ :: rest, last, start⟩ =
          interpolation g (first.text ++ Hole.texts (h :: holes)) none
            (Hole.parts first.text.length (h :: holes)) ⟨rest, last, start⟩ := rfl
      rw [steps, Hole.parts, interpolation_none]
      exact interpolation_of_fills fills first.text (.text first.text) ⟨rest, last, start⟩

end Parser

/-! ## The value of a string -/

theorem Store.view_text (s : Store) (t : Text) : s.view (.text t) = .scalar (.string t) := by
  unfold view
  cases s.cells.size <;> rfl

theorem Run.view_text (t : Text) : Run.view (.text t) = pure (.scalar (.string t)) := by
  funext m
  exact congrArg (EStateM.Result.ok · m) (m.store.view_text t)

namespace Eval

variable {s : Surroundings}

/-- The values of expressions, evaluated one after another, each written out at once and with the
text after it. An expression further to the right is less deep in the tree, so it has more fuel. -/
def filled (s : Surroundings) (fuel : Nat) : List (Node × Text) → Run Text
  | [] => return []
  | (e, after) :: rest => do
    let v ← (calls (fuel + 1) s).eval e
    let shown ← Run.view v
    let others ← filled s (fuel + 2) rest
    return shown.bare ++ after ++ others

theorem arithmetic_text (store : Store) (t : Text) (v : Value) :
    Operator.arithmetic store (.text t) .plus v = .ok (.text (t ++ (store.view v).bare)) := by
  unfold Operator.arithmetic
  rw [if_pos (.inl rfl), if_pos rfl, Store.view_text]
  rfl

/-- A sum with a string on its left shows what is on its right. -/
theorem sum_of_text (s : Surroundings) {c : Calls} {left right : Node} {first : Run Text}
    (evaluated : c.eval left = first >>= fun t => pure (.text t)) :
    expression s c (.arithmetic left .plus right) = do
      let t ← first
      let v ← c.eval right
      let shown ← Run.view v
      return .text (t ++ shown.bare) := by
  rw [expression, evaluated]
  simp only [bind_assoc, pure_bind, Run.view, arithmetic_text]
  rfl

/-- **A string with expressions joined to it** evaluates them in order and does nothing else. The
induction is on the expressions, the outermost sum last; what is on the left of it may be anything
that gives a string. -/
theorem eval_joined (fuel : Nat) {before : Node} {first : Run Text} (es : List (Node × Text))
    (evaluated : (calls (fuel + 1) s).eval before = first >>= fun t => pure (.text t)) :
    (calls (fuel + 1 + 2 * es.length) s).eval (before.joined es) = do
      let t ← first
      let others ← filled s fuel es
      return .text (t ++ others) := by
  induction es generalizing fuel before first with
  | nil => simpa [Node.joined, filled] using evaluated
  | cons pair es ih =>
      obtain ⟨e, after⟩ := pair
      have shown : (calls (fuel + 2) s).eval (.arithmetic before .plus e) =
          (do
            let t ← first
            let v ← (calls (fuel + 1) s).eval e
            let shown ← Run.view v
            return t ++ shown.bare) >>= fun t => pure (.text t) := by
        simp only [bind_assoc, pure_bind]
        exact sum_of_text s evaluated
      have joined : (calls (fuel + 3) s).eval
          (.arithmetic (.arithmetic before .plus e) .plus (.text after)) =
          (do
            let t ← first
            let v ← (calls (fuel + 1) s).eval e
            let shown ← Run.view v
            return t ++ shown.bare ++ after) >>= fun t => pure (.text t) := by
        have literal : (calls (fuel + 2) s).eval (.text after) = pure (.text after) := rfl
        refine (sum_of_text s shown).trans ?_
        simp only [bind_assoc, pure_bind, literal, Run.view_text]
        rfl
      have depth : fuel + 1 + 2 * (es.length + 1) = fuel + 2 + 1 + 2 * es.length := by omega
      rw [List.length_cons, depth, Node.joined, ih (fuel + 2) joined]
      simp [filled]

end Eval

/-- **Strings with segments.** Let the lexer read a string with segments after a double quote. Then
the string is written as texts with segments between them. Its token has the texts without their
escapes put together, with places of the segments that come in order and are not beyond the end.

If the segments are expressions, the string is read as an atom. With fuel for its depth, its tree
evaluates the expressions once each from left to right and writes out each value before the next. It
fails only as one of them does, and else gives the texts with what was written out between them. -/
theorem interpolation_concatenates {line : Int} {t : Text} {out : Lexer.Step} {token : Token}
    (lexed : Lexer.step Lexer.segmentTokens line (byte '"') t = .ok out)
    (only : out.tokens = [token]) (interpolated : token.kind = .interpolated) :
    ∃ l : Lexer.Literal line,
      l.holes ≠ [] ∧ t = l.written ++ byte '"' :: out.rest ∧
      token = { kind := .interpolated, line, text := l.text, parts := l.parts } ∧
      (token.parts.map Prod.fst).Pairwise (· ≤ ·) ∧
      (∀ place ∈ token.parts.map Prod.fst, place ≤ token.text.length) ∧
      ∀ (g : Parser.Grammar) (c : Cursor) (rest : List Token) (es : List (Node × Text))
        (site : Nat), c.tokens = token :: rest → Parser.Fills g c.site l.holes es site →
        ∃ tree, Parser.atom g c = .ok (tree, { c with tokens := rest, site }) ∧
          ∀ fuel s, (calls (fuel + 1 + 2 * es.length) s).eval tree = do
            let others ← Eval.filled s fuel es
            return .text (l.first.text ++ others) := by
  obtain ⟨body, read, rfl⟩ := Lexer.map_eq_ok
    (show (Lexer.string Lexer.segmentTokens line none t).map _ = .ok out from lexed)
  cases List.singleton_inj.mp only
  obtain ⟨l, written, same⟩ := Lexer.exists_literal read
  have some : l.holes ≠ [] := by
    intro none
    have parts : body.parts = [] := by rw [same, Lexer.Literal.body, Lexer.Literal.parts, none]; rfl
    simp [Lexer.StringBody.token, parts] at interpolated
  have token : body.token line = ⟨.interpolated, line, l.text, l.parts⟩ := by
    have kind : (body.token line).kind = .interpolated := interpolated
    rw [same] at kind ⊢
    exact congrArg (Token.mk · line l.text l.parts) kind
  refine ⟨l, some, written, token, ?_, ?_, ?_⟩
  · rw [token]
    exact Lexer.Hole.parts_sorted _ _
  · intro place member
    rw [token] at member ⊢
    obtain ⟨part, there, rfl⟩ := List.mem_map.mp member
    have bounds := Lexer.Hole.le_of_mem_parts there
    rw [Lexer.Literal.text, List.length_append]
    exact bounds.2
  · intro g c rest es site tokens fills
    rw [token] at tokens
    refine ⟨_, Parser.atom_of_fills tokens fills some, fun fuel s => ?_⟩
    have first : (calls (fuel + 1) s).eval (.text l.first.text) =
        pure l.first.text >>= fun t => pure (.text t) := rfl
    rw [Eval.eval_joined fuel es first, pure_bind]

/-- In `"a{x}\n"` the segment is after the first byte, and the newline is after the segment. -/
theorem interpolation_concatenates_name :
    let x : Token := { kind := .identifier, line := 1, text := "x" }
    let token : Token := ⟨.interpolated, 1, "a\n", [(1, [x])]⟩
    Lexer.step Lexer.segmentTokens 1 (byte '"') "a\x7bx\x7d\\n\"" = .ok ⟨[token], 1, []⟩ ∧
      ∃ tree, Parser.atom (Parser.grammar 1) ⟨[token], 1, 0⟩ = .ok (tree, ⟨[], 1, 0⟩) ∧
        ∀ fuel s, (calls (fuel + 3) s).eval tree = do
          let v ← (calls (fuel + 1) s).eval (.name "x")
          let shown ← Run.view v
          return .text ("a" ++ (shown.bare ++ "\n")) := by
  intro x token
  have inside : Lexer.segmentTokens 1 [byte 'x'] = .ok [x] := by
    have word := Lexer.tokensFrom_cons (show Lexer.step (fun _ _ => .ok []) 1 (byte 'x') [] =
      .ok ⟨[x], 1, []⟩ from rfl)
    rwa [Lexer.tokensFrom] at word
  have read : Lexer.string Lexer.segmentTokens 1 none
      (byte 'a' :: byte '{' :: ([byte 'x'] ++ byte '}' :: byte '\\' :: byte 'n' :: [byte '"'])) =
      .ok ⟨"a\n", [(1, [x])], []⟩ := by
    rw [Lexer.string_plain (by decide) (by decide) (by decide) (by decide), Lexer.string_open,
      Lexer.string_segment (by decide) inside, Lexer.string_escape, Lexer.string_quote]
    rfl
  have lexed : Lexer.step Lexer.segmentTokens 1 (byte '"') "a\x7bx\x7d\\n\"" =
      .ok ⟨[token], 1, []⟩ := Lexer.step_string read
  obtain ⟨⟨first, holes⟩, _, _, same, _, _, meaning⟩ := interpolation_concatenates lexed rfl rfl
  cases holes with
  | nil => cases congrArg Token.parts same
  | cons h holes =>
      cases holes with
      | cons _ _ =>
          have lengths : 1 = _ + 1 + 1 := congrArg (fun token => token.parts.length) same
          omega
      | nil =>
          have parts : [(1, [x])] = [(first.text.length, h.tokens)] := congrArg Token.parts same
          have text : ("a" : Text) ++ ("\n" : Text) = first.text ++ (h.after.text ++ []) :=
            congrArg Token.text same
          simp only [List.cons.injEq, Prod.mk.injEq, and_true] at parts
          obtain ⟨start, rest⟩ := List.append_inj text parts.1
          rw [List.append_nil] at rest
          have fills : Parser.Fills (Parser.grammar 1) 0 [h] [(.name "x", h.after.text)] 0 :=
            .cons (by rw [← parts.2]; rfl) rfl .nil
          obtain ⟨tree, read, evaluates⟩ :=
            meaning (Parser.grammar 1) ⟨[token], 1, 0⟩ [] _ 0 rfl fills
          refine ⟨lexed, tree, read, fun fuel s => (evaluates fuel s).trans ?_⟩
          simp [Eval.filled, ← start, ← rest]

end EplLang
