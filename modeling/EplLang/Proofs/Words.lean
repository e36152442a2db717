import EplLang.Proofs.Characters
import EplLang.Text.Words

/-!
# Words and lines

A text is read piece by piece, and a piece is a character or a stray byte. Where two texts are put
together the reading of the first may go on into the second, but not past a byte that continues no
character (`Utf8.pieces_append`); and pieces of a text that stand together are read alike from their
own bytes (`Utf8.pieces_of_append`). So words can be told apart at spaces (`Text.words_space`), and a
word of a text is one word when it stands alone.

A text that is broken into lines keeps its words. Each line is filled as far as it goes: it has no
more bytes than the width allows, unless it is one word, and it ends only where the next word does
not fit (`Text.wrapped_lines`).
-/

set_option autoImplicit false

namespace EplLang

/-! ## Reading piece by piece -/

namespace Utf8

/-- A character that is read is read whatever comes after. -/
theorem leadChar_append {a : UInt8} {t : Text} {c : Char} {k : Nat}
    (read : leadChar a t = some (c, k)) (u : Text) : leadChar a (t ++ u) = some (c, k) := by
  have bytes := bytes_of_leadChar read
  have again := leadChar_encodeChar bytes (t.drop k)
  rw [List.take_append_drop, read] at again
  have longer := leadChar_encodeChar bytes (t.drop k ++ u)
  rw [← List.append_assoc, List.take_append_drop, ← again] at longer
  exact longer

/-- No character reaches past a byte that continues none. -/
theorem leadChar_of_lead {a : UInt8} (lead : isContinuation a = false) (b : UInt8) (t u : Text) :
    leadChar b (t ++ a :: u) = leadChar b t := by
  cases long : leadChar b (t ++ a :: u) with
  | some read =>
    obtain ⟨c, k⟩ := read
    have bytes := bytes_of_leadChar long
    by_cases within : k ≤ t.length
    · rw [List.take_append_of_le_length within] at bytes
      have short := leadChar_encodeChar bytes (t.drop k)
      rw [List.take_append_drop, List.length_take_of_le within] at short
      exact short.symm
    · obtain ⟨first, rest, shape, -, continues⟩ := encodeChar_shape c
      obtain ⟨-, rfl⟩ := List.cons.inj (bytes.symm.trans shape)
      have inside : a ∈ (t ++ a :: u).take k := by
        rw [List.take_append, List.mem_append]
        obtain ⟨more, past⟩ : ∃ more, k - t.length = more + 1 := ⟨k - t.length - 1, by omega⟩
        exact .inr (by rw [past, List.take_succ_cons]; exact List.mem_cons_self)
      rw [continues a inside] at lead
      cases lead
  | none =>
    cases short : leadChar b t with
    | some read => rw [leadChar_append short] at long; cases long
    | none => rfl

theorem pieces_encodeChar (c : Char) (t : Text) :
    pieces (encodeChar c ++ t) = .char c :: pieces t := by
  obtain ⟨a, rest, bytes, -⟩ := encodeChar_shape c
  rw [bytes, List.cons_append, pieces_char (leadChar_encodeChar bytes t), List.drop_left]

/-- A text is read piece by piece. -/
theorem pieces_induction {motive : Text → Prop} (nil : motive [])
    (char : ∀ c t, motive t → motive (encodeChar c ++ t))
    (stray : ∀ a t, leadChar a t = none → motive t → motive (a :: t)) (t : Text) : motive t := by
  obtain ⟨bound, within⟩ : ∃ bound, t.length ≤ bound := ⟨_, Nat.le_refl _⟩
  induction bound generalizing t with
  | zero =>
    obtain rfl := List.eq_nil_of_length_eq_zero (Nat.le_zero.mp within)
    exact nil
  | succ bound ih =>
    cases t with
    | nil => exact nil
    | cons a t =>
      rw [List.length_cons] at within
      cases read : leadChar a t with
      | some first =>
        obtain ⟨c, k⟩ := first
        have bytes : a :: t = encodeChar c ++ t.drop k := by
          rw [bytes_of_leadChar read, List.cons_append, List.take_append_drop]
        rw [bytes]
        exact char c _ (ih _ (by rw [List.length_drop]; omega))
      | none => exact stray a t read (ih t (by omega))

theorem flatMap_bytes_pieces (t : Text) : (pieces t).flatMap Piece.bytes = t := by
  induction t using pieces_induction with
  | nil => rfl
  | char c t ih => rw [pieces_encodeChar, List.flatMap_cons, ih]; rfl
  | stray a t read ih => rw [pieces_stray read, List.flatMap_cons, ih]; rfl

theorem pieces_of_eq {t : Text} {ps : List Piece} (read : pieces t = ps) :
    pieces (ps.flatMap Piece.bytes) = ps := by
  rw [← read, flatMap_bytes_pieces]

/-- Before a byte that continues no character the reading can be cut. -/
theorem pieces_append {a : UInt8} (lead : isContinuation a = false) (t u : Text) :
    pieces (t ++ a :: u) = pieces t ++ pieces (a :: u) := by
  induction t using pieces_induction with
  | nil => rfl
  | char c t ih => rw [List.append_assoc, pieces_encodeChar, pieces_encodeChar, ih, List.cons_append]
  | stray b t read ih =>
    have read' := (leadChar_of_lead lead b t u).trans read
    rw [List.cons_append, pieces_stray read, pieces_stray read', ih, List.cons_append]

/-- Pieces of a text that stand together are read from their own bytes. -/
theorem pieces_of_append {t : Text} {ps qs : List Piece} (read : pieces t = ps ++ qs) :
    pieces (ps.flatMap Piece.bytes) = ps ∧ pieces (qs.flatMap Piece.bytes) = qs := by
  induction t using pieces_induction generalizing ps with
  | nil =>
    obtain ⟨rfl, rfl⟩ := List.append_eq_nil_iff.mp read.symm
    exact ⟨rfl, rfl⟩
  | char c t ih =>
    cases ps with
    | nil => exact ⟨rfl, pieces_of_eq read⟩
    | cons p ps =>
      rw [pieces_encodeChar, List.cons_append, List.cons.injEq] at read
      obtain ⟨rfl, read⟩ := read
      obtain ⟨first, second⟩ := ih read
      refine ⟨?_, second⟩
      rw [List.flatMap_cons]
      exact (pieces_encodeChar c _).trans (congrArg _ first)
  | stray a t alone ih =>
    cases ps with
    | nil => exact ⟨rfl, pieces_of_eq read⟩
    | cons p ps =>
      rw [pieces_stray alone, List.cons_append, List.cons.injEq] at read
      obtain ⟨rfl, read⟩ := read
      obtain ⟨first, second⟩ := ih read
      refine ⟨?_, second⟩
      have whole : ps.flatMap Piece.bytes ++ qs.flatMap Piece.bytes = t := by
        rw [← List.flatMap_append, ← read, flatMap_bytes_pieces]
      have still : leadChar a (ps.flatMap Piece.bytes) = none := by
        cases short : leadChar a (ps.flatMap Piece.bytes) with
        | none => rfl
        | some first => rw [← whole, leadChar_append short] at alone; cases alone
      rw [List.flatMap_cons]
      exact (pieces_stray still).trans (congrArg _ first)

end Utf8

namespace Text

open Utf8 (Piece pieces)

/-! ## Words -/

/-- The words are what stands between white space, where something does. A word already begun
belongs to the first of these. -/
theorem wordsFrom_eq (word : Text) (ps : List Piece) :
    wordsFrom word ps = (((ps.splitOnP isBlankPiece).map (·.flatMap Piece.bytes)).modifyHead
      (word.reverse ++ ·)).filter (· ≠ []) := by
  induction ps generalizing word with
  | nil => cases word <;> simp [wordsFrom]
  | cons p ps ih =>
    obtain ⟨run, runs, split⟩ := List.exists_cons_of_ne_nil (List.splitOnP_ne_nil isBlankPiece ps)
    have fresh := ih []
    rw [wordsFrom, List.splitOnP_cons_eq_if_modifyHead, fresh, ih, split]
    by_cases blank : isBlankPiece p = true
    · rw [if_pos blank, if_pos blank]
      cases word <;> simp
    · rw [if_neg blank, if_neg blank]
      simp

theorem words_eq (t : Text) :
    words t = (((pieces t).splitOnP isBlankPiece).map (·.flatMap Piece.bytes)).filter (· ≠ []) := by
  rw [words, wordsFrom_eq]
  cases (pieces t).splitOnP isBlankPiece <;> rfl

/-- A space divides the words. -/
theorem words_space (t u : Text) : words (t ++ byte ' ' :: u) = words t ++ words u := by
  have space : pieces (byte ' ' :: u) = .char ' ' :: pieces u := rfl
  rw [words_eq, words_eq, words_eq, Utf8.pieces_append rfl, space,
    List.splitOnP_append_cons _ _ rfl, List.map_append, List.filter_append]

/-- A text without white space in it. -/
def Solid (t : Text) : Prop := ∀ p ∈ pieces t, isBlankPiece p = false

instance (t : Text) : Decidable (Solid t) :=
  inferInstanceAs (Decidable (∀ p ∈ pieces t, isBlankPiece p = false))

theorem words_of_solid {t : Text} (solid : Solid t) (some : t ≠ []) : words t = [t] := by
  rw [words_eq, List.splitOnP_eq_singleton solid]
  simp [Utf8.flatMap_bytes_pieces, some]

/-- Whatever stands between white space has none in it and stands together. -/
theorem splitOnP_runs (ps : List Piece) : ∃ first others,
    ps.splitOnP isBlankPiece = first :: others ∧ first <+: ps ∧
      (∀ p ∈ first, isBlankPiece p = false) ∧
      ∀ run ∈ others, run <:+: ps ∧ ∀ p ∈ run, isBlankPiece p = false := by
  induction ps with
  | nil => exact ⟨[], [], rfl, List.nil_prefix, nofun, nofun⟩
  | cons p ps ih =>
    obtain ⟨first, others, split, start, solid, rest⟩ := ih
    have later : ∀ run ∈ others, run <:+: p :: ps ∧ ∀ p ∈ run, isBlankPiece p = false :=
      fun run member => ⟨List.infix_cons (rest run member).1, (rest run member).2⟩
    rw [List.splitOnP_cons_eq_if_modifyHead, split]
    by_cases blank : isBlankPiece p = true
    · rw [if_pos blank]
      exact ⟨[], first :: others, rfl, List.nil_prefix, nofun,
        List.forall_mem_cons.mpr ⟨⟨List.infix_cons start.isInfix, solid⟩, later⟩⟩
    · rw [if_neg blank]
      exact ⟨p :: first, others, rfl, List.cons_prefix_cons.mpr ⟨rfl, start⟩,
        List.forall_mem_cons.mpr ⟨Bool.eq_false_iff.mpr blank, solid⟩, later⟩

theorem solid_of_mem_words {t w : Text} (member : w ∈ words t) : Solid w ∧ w ≠ [] := by
  rw [words_eq, List.mem_filter, List.mem_map] at member
  obtain ⟨⟨run, between, rfl⟩, some⟩ := member
  obtain ⟨⟨before, after, whole⟩, solid⟩ :
      run <:+: pieces t ∧ ∀ p ∈ run, isBlankPiece p = false := by
    obtain ⟨first, others, split, start, solid, rest⟩ := splitOnP_runs (pieces t)
    rw [split] at between
    rcases List.mem_cons.mp between with rfl | later
    · exact ⟨start.isInfix, solid⟩
    · exact rest run later
  -- the run is read from its own bytes as it was in the text
  have read := (Utf8.pieces_of_append (Utf8.pieces_of_append whole.symm).1).2
  refine ⟨?_, by simpa using some⟩
  rw [Solid, read]
  exact solid

theorem trim_of_solid {t : Text} (solid : Solid t) : trim t = t := by
  have kept {ps : List Piece} (solid : ∀ p ∈ ps, isBlankPiece p = false) :
      ps.dropWhile isBlankPiece = ps := by
    cases ps with
    | nil => rfl
    | cons p ps => rw [List.dropWhile_cons_of_neg (by simp [solid p List.mem_cons_self])]
  have reversed : ∀ p ∈ (pieces t).reverse, isBlankPiece p = false :=
    fun p member => solid p (List.mem_reverse.mp member)
  rw [trim, kept solid, kept reversed, List.reverse_reverse, Utf8.flatMap_bytes_pieces]

/-! ## Lines -/

/-- The first line starts with the words of the line begun. -/
theorem fill_eq_cons (width : Nat) (line : Text) (ws : List Text) : ∃ first others more,
    fill width line ws = first :: others ∧ words first = words line ++ more := by
  induction ws generalizing line with
  | nil => exact ⟨line, [], [], rfl, (List.append_nil _).symm⟩
  | cons word ws ih =>
    rw [fill]
    split
    · exact ⟨line, _, [], rfl, (List.append_nil _).symm⟩
    · obtain ⟨first, others, more, lines, start⟩ := ih (line ++ byte ' ' :: word)
      exact ⟨first, others, words word ++ more, lines, by rw [start, words_space, List.append_assoc]⟩

theorem join_fill (width : Nat) (line : Text) (ws : List Text) :
    join " " (fill width line ws) = join " " (line :: ws) := by
  induction ws generalizing line with
  | nil => rfl
  | cons word ws ih =>
    rw [fill, join, ← ih word]
    split
    · obtain ⟨first, others, -, lines, -⟩ := fill_eq_cons width word ws
      rw [lines, join]
    · rw [ih (line ++ byte ' ' :: word), ih word]
      have space : line ++ (" " : Text) ++ word = line ++ byte ' ' :: word := List.append_assoc ..
      cases ws with
      | nil => exact space.symm
      | cons next ws => simp only [join, ← space, List.append_assoc]

section Words

variable {ws : List Text} (single : ∀ w ∈ ws, words w = [w]) (width : Nat) (line : Text)
include single

theorem words_fill : (fill width line ws).flatMap words = words line ++ ws := by
  induction ws generalizing line with
  | nil => simp [fill]
  | cons word ws ih =>
    obtain ⟨first, others⟩ := List.forall_mem_cons.mp single
    rw [fill]
    split
    · rw [List.flatMap_cons, ih others, first, List.singleton_append]
    · rw [ih others, words_space, first, List.append_assoc, List.singleton_append]

theorem fits_fill (start : line.length ≤ width ∨ words line = [line]) :
    ∀ l ∈ fill width line ws, l.length ≤ width ∨ words l = [l] := by
  induction ws generalizing line with
  | nil => exact List.forall_mem_singleton.mpr start
  | cons word ws ih =>
    obtain ⟨first, others⟩ := List.forall_mem_cons.mp single
    rw [fill]
    split
    next => exact List.forall_mem_cons.mpr ⟨start, ih others word (.inr first)⟩
    next short =>
      refine ih others _ (.inl ?_)
      rw [List.length_append, List.length_cons]
      omega

theorem ne_nil_fill (start : line ≠ []) : ∀ l ∈ fill width line ws, l ≠ [] := by
  induction ws generalizing line with
  | nil => exact List.forall_mem_singleton.mpr start
  | cons word ws ih =>
    obtain ⟨first, others⟩ := List.forall_mem_cons.mp single
    rw [fill]
    split
    · refine List.forall_mem_cons.mpr ⟨start, ih others word ?_⟩
      rintro rfl
      cases first
    · exact ih others _ (by simp)

/-- A line ends only where the next word would not fit. -/
theorem greedy_fill : (fill width line ws).IsChain fun l next =>
    ∃ word rest, words next = word :: rest ∧ width < l.length + 1 + word.length := by
  induction ws generalizing line with
  | nil => exact .singleton _
  | cons word ws ih =>
    obtain ⟨first, others⟩ := List.forall_mem_cons.mp single
    rw [fill]
    split
    next long =>
      have chain := ih others word
      obtain ⟨next, later, more, lines, start⟩ := fill_eq_cons width word ws
      rw [lines] at chain ⊢
      exact List.isChain_cons_cons.mpr ⟨⟨word, more, by rw [start, first]; rfl, long⟩, chain⟩
    next => exact ih others _

end Words

/-- Breaking a text into lines loses nothing, keeps to the width and wastes no place. Joined by
spaces, the lines are the words of the text joined by spaces, and word for word the same; no line is
empty; a line longer than the width is one word; and to every line but the last the first word of the
next one could not be added. The words are what stands between white space. -/
theorem wrapped_lines (t : Text) (width : Int) :
    words t = (((pieces t).splitOnP isBlankPiece).map (·.flatMap Piece.bytes)).filter (· ≠ []) ∧
    join " " (wrap t width) = join " " (words t) ∧
    (wrap t width).flatMap words = words t ∧
    (∀ line ∈ wrap t width, line ≠ []) ∧
    (∀ line ∈ wrap t width, (line.length : Int) ≤ max width 20 ∨ words line = [line]) ∧
    (wrap t width).IsChain fun line next => ∃ word rest, words next = word :: rest ∧
      max width 20 < (line.length : Int) + 1 + word.length := by
  have single : ∀ w ∈ words t, words w = [w] := fun w member =>
    words_of_solid (solid_of_mem_words member).1 (solid_of_mem_words member).2
  have wide : max width 20 = (max width.toNat leastWidth : Nat) := by
    rw [leastWidth]
    omega
  refine ⟨words_eq t, ?_⟩
  unfold wrap
  cases all : words t with
  | nil => simp
  | cons word rest =>
    rw [all] at single
    obtain ⟨first, others⟩ := List.forall_mem_cons.mp single
    have some : word ≠ [] := (solid_of_mem_words (all ▸ List.mem_cons_self)).2
    dsimp only
    rw [wide]
    refine ⟨join_fill _ word rest, ?_, ne_nil_fill others _ word some, ?_, ?_⟩
    · rw [words_fill others, first, List.singleton_append]
    · intro line member
      exact_mod_cast fits_fill others _ word (.inr first) line member
    · exact_mod_cast greedy_fill others _ word

example : wrap "one two three four five six" 3 = ["one two three four".text, "five six".text] := by
  decide

end Text

end EplLang
