import EplLang.Text.Utf8
import Mathlib.Data.List.Basic
import Mathlib.Tactic.SplitIfs

/-!
# Characters in a byte string

A text is read from left to right, but what a character is does not depend on that: the bytes of a
character stand in the text, or they do not. The first byte of a character continues none, and all
others do (`encodeChar_shape`). So no two characters of a text overlap, a reading that starts
between characters stays between them (`Between`), and a byte is read as stray exactly when it is in
no character of the text (`Covered`).

The characters of a text, joined, are the text with every byte in no character replaced
(`encode_chars`), and this is the text itself exactly when it is an encoding (`mended_eq_iff`).
-/

set_option autoImplicit false

namespace EplLang.Utf8

/-! ## The bytes of a character -/

/-- The numbers of the bytes of a character, by the number of the character. -/
def codes (n : Nat) : List Nat :=
  if n < 0x80 then [n]
  else if n < 0x800 then [n / 64 + 0xC0, n % 64 + 0x80]
  else if n < 0x10000 then [n / 4096 + 0xE0, n / 64 % 64 + 0x80, n % 64 + 0x80]
  else [n / 262144 + 0xF0, n / 4096 % 64 + 0x80, n / 64 % 64 + 0x80, n % 64 + 0x80]

/-- The numbers that are characters: no surrogates, nothing above `0x10FFFF`. -/
theorem toNat_valid (c : Char) : c.toNat < 0xD800 ∨ 0xDFFF < c.toNat ∧ c.toNat < 0x110000 :=
  c.valid

theorem map_toNat_encodeChar (c : Char) : (encodeChar c).map UInt8.toNat = codes c.toNat := by
  have valid := toNat_valid c
  have number : c.val.toNat = c.toNat := rfl
  have single {a x : Nat} : [a] = [x] ↔ a = x := List.singleton_inj
  unfold encodeChar String.utf8EncodeChar codes
  rw [number]
  generalize c.toNat = n at valid
  dsimp only
  by_cases one : n < 0x80
  · rw [if_pos one, if_pos (by omega)]
    simp only [List.map_cons, List.map_nil, UInt8.toNat_ofNat', single]
    omega
  rw [if_neg one, if_neg (by omega)]
  by_cases two : n < 0x800
  · rw [if_pos two, if_pos (by omega)]
    simp only [List.map_cons, List.map_nil, UInt8.toNat_ofNat', List.cons.injEq, single]
    omega
  rw [if_neg two, if_neg (by omega)]
  by_cases three : n < 0x10000
  · rw [if_pos three, if_pos (by omega)]
    simp only [List.map_cons, List.map_nil, UInt8.toNat_ofNat', List.cons.injEq, single]
    omega
  · rw [if_neg three, if_neg (by omega)]
    simp only [List.map_cons, List.map_nil, UInt8.toNat_ofNat', List.cons.injEq, single]
    omega

theorem encodeChar_eq_iff {c : Char} {t : Text} :
    encodeChar c = t ↔ t.map UInt8.toNat = codes c.toNat := by
  rw [← map_toNat_encodeChar, eq_comm]
  exact (List.map_injective_iff.mpr fun _ _ => UInt8.toNat_inj.mp).eq_iff.symm

theorem encodeChar_ofNat {n : Nat} {t : Text}
    (valid : n < 0xD800 ∨ 0xDFFF < n ∧ n < 0x110000) (bytes : t.map UInt8.toNat = codes n) :
    encodeChar (Char.ofNat n) = t := by
  have number : (Char.ofNat n).toNat = n := by
    rw [Char.ofNat, dif_pos valid]
    rfl
  rw [encodeChar_eq_iff, bytes, number]

/-! ## Ranges of bytes -/

theorem tail_eq (b : UInt8) : tail b = b.toNat - 0x80 := rfl

theorem within_iff (low high : UInt8) {b : UInt8} :
    (decide (low ≤ b) && decide (b ≤ high)) = true ↔
      low.toNat ≤ b.toNat ∧ b.toNat ≤ high.toNat := by
  rw [Bool.and_eq_true, decide_eq_true_eq, decide_eq_true_eq, UInt8.le_iff_toNat_le,
    UInt8.le_iff_toNat_le]

theorem isContinuation_iff {b : UInt8} :
    isContinuation b = true ↔ 0x80 ≤ b.toNat ∧ b.toNat ≤ 0xBF :=
  within_iff 0x80 0xBF

theorem ite_le_toNat {a x low low' b : UInt8} : (if a = x then low else low').toNat ≤ b.toNat ↔
    (a.toNat = x.toNat → low.toNat ≤ b.toNat) ∧ (a.toNat ≠ x.toNat → low'.toNat ≤ b.toNat) := by
  rw [UInt8.toNat_inj, ne_eq, UInt8.toNat_inj]
  split_ifs with same <;> simp [same]

theorem le_ite_toNat {a x high high' b : UInt8} :
    b.toNat ≤ (if a = x then high else high').toNat ↔
      (a.toNat = x.toNat → b.toNat ≤ high.toNat) ∧ (a.toNat ≠ x.toNat → b.toNat ≤ high'.toNat) := by
  rw [UInt8.toNat_inj, ne_eq, UInt8.toNat_inj]
  split_ifs with same <;> simp [same]

/-! ## Reading one character -/

/-- What is read as a character are its bytes. -/
theorem bytes_of_leadChar {a : UInt8} {t : Text} {c : Char} {k : Nat}
    (read : leadChar a t = some (c, k)) : encodeChar c = a :: t.take k := by
  have single {a x : Nat} : [a] = [x] ↔ a = x := List.singleton_inj
  unfold leadChar at read
  by_cases low : a < 0x80
  · rw [if_pos low, Option.some.injEq, Prod.mk.injEq] at read
    obtain ⟨rfl, rfl⟩ := read
    have first : a.toNat < 0x80 := UInt8.lt_iff_toNat_lt.mp low
    apply encodeChar_ofNat (by omega)
    rw [codes, if_pos first]
    rfl
  rw [if_neg low] at read
  by_cases lead : (0xC2 ≤ a && a ≤ 0xDF) = true
  · rw [if_pos lead] at read
    rcases t with _ | ⟨b, rest⟩
    · cases read
    dsimp only at read
    rw [Option.ite_none_right_eq_some, Option.some.injEq, Prod.mk.injEq] at read
    obtain ⟨continues, rfl, rfl⟩ := read
    have first : 0xC2 ≤ a.toNat ∧ a.toNat ≤ 0xDF := (within_iff _ _).mp lead
    have second := isContinuation_iff.mp continues
    rw [tail_eq]
    apply encodeChar_ofNat (by omega)
    rw [codes, if_neg (by omega), if_pos (by omega)]
    simp only [List.take_succ_cons, List.take_zero, List.map_cons, List.map_nil,
      List.cons.injEq, single]
    omega
  rw [if_neg lead] at read
  by_cases lead' : (0xE0 ≤ a && a ≤ 0xEF) = true
  · rw [if_pos lead'] at read
    rcases t with _ | ⟨b, _ | ⟨d, rest⟩⟩
    · cases read
    · cases read
    dsimp only at read
    rw [Option.ite_none_right_eq_some, Option.some.injEq, Prod.mk.injEq] at read
    obtain ⟨continues, rfl, rfl⟩ := read
    have first : 0xE0 ≤ a.toNat ∧ a.toNat ≤ 0xEF := (within_iff _ _).mp lead'
    rw [Bool.and_eq_true, within_iff, ite_le_toNat, le_ite_toNat,
      isContinuation_iff] at continues
    simp only [UInt8.reduceToNat] at continues
    rw [tail_eq, tail_eq]
    apply encodeChar_ofNat (by omega)
    rw [codes, if_neg (by omega), if_neg (by omega), if_pos (by omega)]
    simp only [List.take_succ_cons, List.take_zero, List.map_cons, List.map_nil,
      List.cons.injEq, single]
    omega
  rw [if_neg lead'] at read
  by_cases lead'' : (0xF0 ≤ a && a ≤ 0xF4) = true
  · rw [if_pos lead''] at read
    rcases t with _ | ⟨b, _ | ⟨d, _ | ⟨e, rest⟩⟩⟩
    · cases read
    · cases read
    · cases read
    dsimp only at read
    rw [Option.ite_none_right_eq_some, Option.some.injEq, Prod.mk.injEq] at read
    obtain ⟨continues, rfl, rfl⟩ := read
    have first : 0xF0 ≤ a.toNat ∧ a.toNat ≤ 0xF4 := (within_iff _ _).mp lead''
    rw [Bool.and_eq_true, Bool.and_eq_true, within_iff, ite_le_toNat, le_ite_toNat,
      isContinuation_iff, isContinuation_iff] at continues
    simp only [UInt8.reduceToNat] at continues
    rw [tail_eq, tail_eq, tail_eq]
    apply encodeChar_ofNat (by omega)
    rw [codes, if_neg (by omega), if_neg (by omega), if_neg (by omega)]
    simp only [List.take_succ_cons, List.take_zero, List.map_cons, List.map_nil,
      List.cons.injEq, single]
    omega
  · rw [if_neg lead''] at read
    cases read

/-- The bytes of a character, whatever comes after them, are read as it. -/
theorem leadChar_encodeChar {a : UInt8} {rest : Text} {c : Char}
    (bytes : encodeChar c = a :: rest) (t : Text) :
    leadChar a (rest ++ t) = some (c, rest.length) := by
  have numbers := encodeChar_eq_iff.mp bytes
  have valid := toNat_valid c
  have named {n : Nat} (same : n = c.toNat) : Char.ofNat n = c := by rw [same, Char.ofNat_toNat]
  have not_low (high : 0x80 ≤ a.toNat) : ¬a < 0x80 :=
    mt UInt8.lt_iff_toNat_lt.mp (Nat.not_lt.mpr high)
  rw [codes] at numbers
  unfold leadChar
  by_cases one : c.toNat < 0x80
  · rw [if_pos one] at numbers
    obtain ⟨first, none⟩ := List.cons.inj numbers
    obtain rfl := List.map_eq_nil_iff.mp none
    rw [if_pos (UInt8.lt_iff_toNat_lt.mpr (first ▸ one)), named first]
    rfl
  by_cases two : c.toNat < 0x800
  · rw [if_neg one, if_pos two] at numbers
    obtain ⟨first, numbers⟩ := List.cons.inj numbers
    obtain ⟨b, rest, rfl, second, none⟩ := List.map_eq_cons_iff.mp numbers
    obtain rfl := List.map_eq_nil_iff.mp none
    have lead : 0xC2 ≤ a.toNat ∧ a.toNat ≤ 0xDF := by omega
    have continues : isContinuation b = true := isContinuation_iff.mpr (by omega)
    rw [if_neg (not_low (by omega)), if_pos ((within_iff 0xC2 0xDF).mpr lead)]
    simp only [List.cons_append, List.nil_append]
    rw [if_pos continues, tail_eq, named (by omega)]
    rfl
  by_cases three : c.toNat < 0x10000
  · rw [if_neg one, if_neg two, if_pos three] at numbers
    obtain ⟨first, numbers⟩ := List.cons.inj numbers
    obtain ⟨b, rest, rfl, second, numbers⟩ := List.map_eq_cons_iff.mp numbers
    obtain ⟨d, rest, rfl, third, none⟩ := List.map_eq_cons_iff.mp numbers
    obtain rfl := List.map_eq_nil_iff.mp none
    have lead : ¬(0xC2 ≤ a.toNat ∧ a.toNat ≤ 0xDF) := by omega
    have lead' : 0xE0 ≤ a.toNat ∧ a.toNat ≤ 0xEF := by omega
    rw [if_neg (not_low (by omega)), if_neg (mt (within_iff 0xC2 0xDF).mp lead),
      if_pos ((within_iff 0xE0 0xEF).mpr lead')]
    simp only [List.cons_append, List.nil_append]
    rw [if_pos, tail_eq, tail_eq, named (by omega)]
    · rfl
    · rw [Bool.and_eq_true, within_iff, ite_le_toNat, le_ite_toNat, isContinuation_iff]
      simp only [UInt8.reduceToNat]
      omega
  · rw [if_neg one, if_neg two, if_neg three] at numbers
    obtain ⟨first, numbers⟩ := List.cons.inj numbers
    obtain ⟨b, rest, rfl, second, numbers⟩ := List.map_eq_cons_iff.mp numbers
    obtain ⟨d, rest, rfl, third, numbers⟩ := List.map_eq_cons_iff.mp numbers
    obtain ⟨e, rest, rfl, fourth, none⟩ := List.map_eq_cons_iff.mp numbers
    obtain rfl := List.map_eq_nil_iff.mp none
    have lead : ¬(0xC2 ≤ a.toNat ∧ a.toNat ≤ 0xDF) := by omega
    have lead' : ¬(0xE0 ≤ a.toNat ∧ a.toNat ≤ 0xEF) := by omega
    have lead'' : 0xF0 ≤ a.toNat ∧ a.toNat ≤ 0xF4 := by omega
    rw [if_neg (not_low (by omega)), if_neg (mt (within_iff 0xC2 0xDF).mp lead),
      if_neg (mt (within_iff 0xE0 0xEF).mp lead'), if_pos ((within_iff 0xF0 0xF4).mpr lead'')]
    simp only [List.cons_append, List.nil_append]
    rw [if_pos, tail_eq, tail_eq, tail_eq, named (by omega)]
    · rfl
    · rw [Bool.and_eq_true, Bool.and_eq_true, within_iff, ite_le_toNat, le_ite_toNat,
        isContinuation_iff, isContinuation_iff]
      simp only [UInt8.reduceToNat]
      omega

/-! ## Characters do not overlap -/

theorem codes_shape {n : Nat} (valid : n < 0x110000) : ∃ first rest, codes n = first :: rest ∧
    (first < 0x80 ∨ 0xC0 ≤ first) ∧ ∀ x ∈ rest, 0x80 ≤ x ∧ x ≤ 0xBF := by
  unfold codes
  split_ifs with one two three
  · exact ⟨_, _, rfl, .inl one, nofun⟩
  · refine ⟨_, _, rfl, .inr (by omega), ?_⟩
    simp only [List.mem_cons, List.not_mem_nil, or_false]
    omega
  · refine ⟨_, _, rfl, .inr (by omega), ?_⟩
    simp only [List.mem_cons, List.not_mem_nil, or_false]
    omega
  · refine ⟨_, _, rfl, .inr (by omega), ?_⟩
    simp only [List.mem_cons, List.not_mem_nil, or_false]
    omega

/-- The first byte of a character continues none, and all others do. -/
theorem encodeChar_shape (c : Char) : ∃ a rest, encodeChar c = a :: rest ∧
    isContinuation a = false ∧ ∀ b ∈ rest, isContinuation b = true := by
  obtain ⟨first, others, bytes, leads, continues⟩ :=
    codes_shape (n := c.toNat) (by have := toNat_valid c; omega)
  obtain ⟨a, rest, same, rfl, rfl⟩ :=
    List.map_eq_cons_iff.mp ((map_toNat_encodeChar c).trans bytes)
  refine ⟨a, rest, same, ?_, fun b member => ?_⟩
  · rw [← Bool.not_eq_true, isContinuation_iff]
    omega
  · exact isContinuation_iff.mpr (continues _ (List.mem_map_of_mem member))

/-- A text that starts with the bytes of two characters starts with one. -/
theorem encodeChar_cancel {c d : Char} {t u : Text}
    (same : encodeChar c ++ t = encodeChar d ++ u) : c = d := by
  obtain ⟨a, rest, bytes, -⟩ := encodeChar_shape c
  obtain ⟨b, rest', bytes', -⟩ := encodeChar_shape d
  rw [bytes, bytes', List.cons_append, List.cons_append, List.cons.injEq] at same
  obtain ⟨rfl, same⟩ := same
  have first := leadChar_encodeChar bytes t
  rw [same, leadChar_encodeChar bytes' u] at first
  exact (congrArg Prod.fst (Option.some.inj first)).symm

/-- Two encodings in one text, the second starting no earlier. They start at one place, and are of
one character, or the second starts after the first. -/
theorem encodeChar_apart {u u' v v' : Text} {c d : Char}
    (same : u ++ encodeChar c ++ v = u' ++ encodeChar d ++ v') (later : u.length ≤ u'.length) :
    u.length = u'.length ∧ c = d ∨ u.length + (encodeChar c).length ≤ u'.length := by
  rw [List.append_assoc, List.append_assoc] at same
  obtain ⟨w, rfl⟩ : ∃ w, u' = u ++ w := by
    have shared : u <+: u' := List.prefix_of_prefix_length_le ⟨_, same⟩ ⟨_, rfl⟩ later
    exact ⟨u'.drop u.length, (List.prefix_iff_eq_append.mp shared).symm⟩
  rw [List.append_assoc, List.append_cancel_left_eq] at same
  cases w with
  | nil => exact .inl ⟨by rw [List.append_nil], encodeChar_cancel same⟩
  | cons b w =>
    right
    obtain ⟨a, rest, bytes, -, continues⟩ := encodeChar_shape c
    obtain ⟨a', rest', bytes', leads, -⟩ := encodeChar_shape d
    -- A start inside the first character would be a byte that continues it.
    by_contra inside
    rw [bytes, List.length_append] at inside
    rw [bytes, bytes', List.cons_append, List.cons_append, List.cons.injEq] at same
    have place : rest[w.length]? = some a' := by
      have short : w.length < rest.length := by simp at inside; omega
      rw [← List.getElem?_append_left short, same.2]
      simp
    have := continues a' (List.mem_of_getElem? place)
    simp [leads] at this

/-! ## The text with stray bytes replaced -/

/-- The byte at a place of a text is one of the bytes of a character. -/
def Covered (t : Text) (place : Nat) : Prop :=
  ∃ u c v, t = u ++ encodeChar c ++ v ∧ u.length ≤ place ∧
    place < u.length + (encodeChar c).length

open Classical in
/-- The bytes `w` at a place of the text `t`, with the replacement character for every byte that is
in no character of `t`. -/
noncomputable def mendedFrom (t : Text) (place : Nat) (w : Text) : Text :=
  (w.zipIdx place).flatMap fun (b, i) => if Covered t i then [b] else encodeChar replacement

/-- A text with the replacement character for every byte that is in no character. -/
noncomputable def mended (t : Text) : Text := mendedFrom t 0 t

/-- No character of a text goes across a place. -/
def Between (t : Text) (place : Nat) : Prop :=
  ∀ u c v, t = u ++ encodeChar c ++ v →
    place ≤ u.length ∨ u.length + (encodeChar c).length ≤ place

section Steps

variable {u w : Text}

theorem Between.char {c : Char} (between : Between (u ++ (encodeChar c ++ w)) u.length) :
    Between (u ++ (encodeChar c ++ w)) (u ++ encodeChar c).length := by
  intro u' d v same
  rw [List.length_append]
  rcases between u' d v same with later | earlier
  · rw [← List.append_assoc] at same
    rcases encodeChar_apart same later with ⟨start, rfl⟩ | after
    · exact .inr (by omega)
    · exact .inl after
  · exact .inr (by omega)

variable {a : UInt8}

theorem not_covered (between : Between (u ++ a :: w) u.length) (stray : leadChar a w = none) :
    ¬Covered (u ++ a :: w) u.length := by
  rintro ⟨u', c, v, same, start, stop⟩
  have place : u.length = u'.length := by
    rcases between u' c v same with later | earlier
    · omega
    · omega
  obtain ⟨b, rest, bytes, -⟩ := encodeChar_shape c
  rw [List.append_assoc] at same
  obtain ⟨-, same⟩ := List.append_inj same place
  rw [bytes, List.cons_append, List.cons.injEq] at same
  obtain ⟨rfl, rfl⟩ := same
  rw [leadChar_encodeChar bytes v] at stray
  cases stray

theorem Between.stray (between : Between (u ++ a :: w) u.length) (stray : leadChar a w = none) :
    Between (u ++ a :: w) (u ++ [a]).length := by
  intro u' d v same
  have none := not_covered between stray
  rw [List.length_append, List.length_singleton]
  by_contra! across
  exact none ⟨u', d, v, same, by omega, by omega⟩

end Steps

theorem piecesAfter_eq_drop (k : Nat) (t : Text) : piecesAfter k t = pieces (t.drop k) := by
  induction t generalizing k with
  | nil => cases k <;> rfl
  | cons a t ih =>
    cases k with
    | zero => rfl
    | succ k => exact ih k

theorem pieces_char {a : UInt8} {t : Text} {c : Char} {k : Nat}
    (read : leadChar a t = some (c, k)) : pieces (a :: t) = .char c :: pieces (t.drop k) := by
  rw [pieces, piecesAfter, read]
  exact congrArg _ (piecesAfter_eq_drop k t)

theorem pieces_stray {a : UInt8} {t : Text} (read : leadChar a t = none) :
    pieces (a :: t) = .stray a :: pieces t := by
  rw [pieces, piecesAfter, read]
  rfl

theorem mendedFrom_append (t : Text) (place : Nat) (w w' : Text) :
    mendedFrom t place (w ++ w') = mendedFrom t place w ++ mendedFrom t (place + w.length) w' := by
  rw [mendedFrom, List.zipIdx_append, List.flatMap_append]
  rfl

theorem mendedFrom_of_covered {t : Text} {place : Nat} {w : Text}
    (covered : ∀ i, place ≤ i → i < place + w.length → Covered t i) : mendedFrom t place w = w := by
  induction w generalizing place with
  | nil => rfl
  | cons b w ih =>
    rw [List.length_cons] at covered
    have first : mendedFrom t place [b] = [b] := by
      simp [mendedFrom, covered place (Nat.le_refl _) (by omega)]
    have rest : mendedFrom t (place + 1) w = w :=
      ih fun i least most => covered i (by omega) (by omega)
    rw [← List.singleton_append, mendedFrom_append, first, List.length_singleton, rest]

theorem mendedFrom_of_not_covered {t : Text} {place : Nat} (stray : ¬Covered t place) (b : UInt8) :
    mendedFrom t place [b] = encodeChar replacement := by
  simp [mendedFrom, stray]

/-- From a place between characters on, what is read are the bytes there, the stray ones
replaced. -/
theorem encode_chars_from (w u : Text) (between : Between (u ++ w) u.length) :
    encode (chars w) = mendedFrom (u ++ w) u.length w := by
  -- The reading takes one piece at a time, so the induction is on a bound for what is left.
  obtain ⟨bound, within⟩ : ∃ bound, w.length ≤ bound := ⟨_, Nat.le_refl _⟩
  induction bound generalizing w u with
  | zero =>
    obtain rfl := List.eq_nil_of_length_eq_zero (Nat.le_zero.mp within)
    rfl
  | succ bound ih =>
    cases w with
    | nil => rfl
    | cons a w =>
      rw [List.length_cons] at within
      cases read : leadChar a w with
      | some first =>
        obtain ⟨c, k⟩ := first
        have bytes : a :: w = encodeChar c ++ w.drop k := by
          rw [bytes_of_leadChar read, List.cons_append, List.take_append_drop]
        have shorter : (w.drop k).length ≤ bound := by
          rw [List.length_drop]
          omega
        rw [bytes] at between
        have next := ih (w.drop k) (u ++ encodeChar c)
          (by rw [List.append_assoc]; exact between.char) shorter
        rw [List.append_assoc, List.length_append] at next
        have covered : mendedFrom (u ++ (encodeChar c ++ w.drop k)) u.length (encodeChar c) =
            encodeChar c :=
          mendedFrom_of_covered fun i least most =>
            ⟨u, c, w.drop k, (List.append_assoc ..).symm, least, most⟩
        calc encode (chars (a :: w))
          _ = encodeChar c ++ encode (chars (w.drop k)) := by
            rw [chars, pieces_char read]
            rfl
          _ = mendedFrom (u ++ (a :: w)) u.length (a :: w) := by
            rw [bytes, mendedFrom_append, covered, next]
      | none =>
        have next := ih w (u ++ [a])
          (by rw [List.append_assoc]; exact between.stray read) (by omega)
        rw [List.append_assoc, List.length_append] at next
        have first := mendedFrom_of_not_covered (not_covered between read) a
        calc encode (chars (a :: w))
          _ = encodeChar replacement ++ encode (chars w) := by
            rw [chars, pieces_stray read]
            rfl
          _ = mendedFrom (u ++ ([a] ++ w)) u.length ([a] ++ w) := by
            rw [mendedFrom_append, next]
            exact congrArg (· ++ _) first.symm

/-- The characters of a text, joined, are the text with its stray bytes replaced. -/
theorem encode_chars (t : Text) : encode (chars t) = mended t :=
  encode_chars_from t [] fun _ _ _ _ => .inl (Nat.zero_le _)

theorem chars_encode (cs : List Char) : chars (encode cs) = cs := by
  induction cs with
  | nil => rfl
  | cons c cs ih =>
    obtain ⟨a, rest, bytes, -⟩ := encodeChar_shape c
    have read := pieces_char (leadChar_encodeChar bytes (encode cs))
    rw [List.drop_left] at read
    rw [encode, List.flatMap_cons, bytes, chars, List.cons_append]
    change List.map Piece.toChar (pieces (a :: (rest ++ encode cs))) = c :: cs
    rw [read, List.map_cons]
    exact congrArg _ ih

/-- Mending changes every text but the encodings. -/
theorem mended_eq_iff (t : Text) : mended t = t ↔ ∃ cs, t = encode cs := by
  constructor
  · intro same
    exact ⟨chars t, by rw [encode_chars, same]⟩
  · rintro ⟨cs, rfl⟩
    rw [← encode_chars, chars_encode]

end EplLang.Utf8
