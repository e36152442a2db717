import EplLang.Proofs.Passing
import EplLang.Proofs.ReadBack
import EplLang.Proofs.Words

/-!
# Calls of built-in functions

The body of a built-in function is a native operation. A call whose arguments are scalars binds the
parameters to them, carries out the operation and gives what it gives, or stops where it stops
(`Native.eval_of_ok`, `Native.eval_of_error`). Nothing of the caller matters, except that no signal may
be pending: a body does not start under one.

So two calls, one inside the other, are two operations in a row. For the two that turn numbers into
texts and texts into numbers this gives back every number (`number_text_round_trip`): the text is
read as the number, and no white space is in it that could be trimmed off.
-/

set_option autoImplicit false

namespace EplLang

/-! ## Names and parameters -/

theorem Run.lookup_bound {m : Machine} {n : Text} {v : Value} (named : n ≠ "self")
    (found : m.bindings.find? n = some v) : Run.lookup n m = .ok v m := by
  rw [Run.lookup, Run.get_bind, if_neg named, found]
  rfl

/-- The state after binding a name to a scalar. -/
def Machine.given (m : Machine) (n : Text) (x : Scalar) : Machine :=
  { m with bindings := m.bindings.set n (.scalar x) }

theorem Run.copy_scalar (x : Scalar) (m : Machine) :
    Run.copy (.scalar x) m = .ok (.scalar x) m := by
  rw [Run.copy, Run.get_bind, Store.copy_scalar]
  rfl

theorem Run.lookup_given (m : Machine) {n : Text} (named : n ≠ "self") (x : Scalar) :
    Run.lookup n (m.given n x) = .ok (.scalar x) (m.given n x) :=
  lookup_bound named (Bindings.find?_set _ n _)

namespace Eval

theorem bindParams_scalar {n : Text} {seen : List Text} (fresh : n ∉ seen) (x : Scalar)
    (rest : List (Text × Value)) (m : Machine) :
    bindParams seen ((n, .scalar x) :: rest) m = bindParams (n :: seen) rest (m.given n x) := by
  rw [bindParams, if_neg (by simpa using fresh), Run.bind_of_ok (Run.copy_scalar x m)]
  rfl

end Eval

/-! ## Built-in functions -/

/-- The name of a native operation is bound to its function. -/
def Machine.Offers (m : Machine) (operation : Native) : Prop :=
  ∃ site, m.bindings.find? operation.name = some (.function site operation.params operation.body)

namespace Native

variable {fuel : Nat} {s : Surroundings} {operation : Native} {m ready start n : Machine}

/-- The operations whose functions give a value. -/
def Gives (operation : Native) : Prop := operation.body = [⟨0, .give (.native operation)⟩]

theorem gives_of_ne (log : operation ≠ .log) (sleep : operation ≠ .sleep) : operation.Gives := by
  cases operation with
  | log => exact absurd rfl log
  | sleep => exact absurd rfl sleep
  | _ => rfl

theorem name_ne_self (operation : Native) : operation.name ≠ "self" := by
  cases operation <;> decide

theorem exec_give (fuel : Nat) (s : Surroundings) (operation : Native) :
    (calls (fuel + 2) s).exec ⟨0, .give (.native operation)⟩ = (do
      let v ← operation.run s
      modify fun m => { m with returns := v :: m.returns }) := rfl

section Calls

variable {args : List Node} {values : List Value} (offers : m.Offers operation)
  (gives : operation.Gives) (count : operation.params.length = args.length)
  (evaluated : Eval.all (calls (fuel + 2) s) args m = .ok values ready)
  (bound : Eval.bindParams [] (operation.params.zip values) ready = .ok () start)
include offers gives count evaluated bound

theorem eval_call : (calls (fuel + 3) s).eval (.call (.name operation.name) args) m =
    Eval.finish (calls (fuel + 2) s) [⟨0, .give (.native operation)⟩] none ready start := by
  obtain ⟨site, found⟩ := offers
  have named : (calls (fuel + 2) s).eval (.name operation.name) m =
      .ok (.function site operation.params operation.body) m :=
    Run.lookup_bound (name_ne_self operation) found
  have resolved : Eval.resolve (calls (fuel + 2) s) (.name operation.name) m =
      .ok (.function site operation.params operation.body, none) m := by
    rw [Eval.resolve, Run.bind_of_ok named]
    · rfl
    · intro base path same
      cases same
  rw [← gives]
  exact Eval.Entry.call_eq
    ⟨site, _, _, none, values, m, ready, start, resolved, count, evaluated, bound⟩

/-- A call gives what the operation gives. -/
theorem eval_of_ok (free : start.pending = false) {x : Scalar}
    (ran : operation.run s start = .ok (.scalar x) n)
    (kept : n.returns = ready.returns) :
    (calls (fuel + 3) s).eval (.call (.name operation.name) args) m = .ok (.scalar x)
      (({ n with receiver := start.receiver } : Machine).closedTo ready.bindings.names) := by
  have gave : (calls (fuel + 2) s).exec ⟨0, .give (.native operation)⟩ start =
      .ok () { n with returns := .scalar x :: n.returns } := by
    rw [exec_give, Run.bind_of_ok ran]
    rfl
  have inside : Run.withReceiver none
      (Eval.block (calls (fuel + 2) s) [⟨0, .give (.native operation)⟩]) start =
        .ok () { n with returns := .scalar x :: n.returns, receiver := start.receiver } := by
    unfold Run.withReceiver
    rw [Option.none_or, Eval.block_of_ok free gave]
    rfl
  rw [eval_call offers gives count evaluated bound, Eval.finish, Run.bind_of_ok inside,
    Run.bind_of_ok (takeReturn_some rfl (by simp [kept])), Run.bind_of_ok (Run.copy_scalar x _)]
  rfl

/-- A call stops where the operation stops. -/
theorem eval_of_error (free : start.pending = false) {e : Stop}
    (ran : operation.run s start = .error e n) :
    (calls (fuel + 3) s).eval (.call (.name operation.name) args) m =
      .error e { n with receiver := start.receiver } := by
  have stops : (calls (fuel + 2) s).exec ⟨0, .give (.native operation)⟩ start = .error e n := by
    rw [exec_give, Run.bind_of_error ran]
  have inside : Run.withReceiver none
      (Eval.block (calls (fuel + 2) s) [⟨0, .give (.native operation)⟩]) start =
        .error e { n with receiver := start.receiver } := by
    unfold Run.withReceiver
    rw [Option.none_or, Eval.block, Run.get_bind, free, if_neg Bool.false_ne_true,
      Run.bind_of_error stops]
  rw [eval_call offers gives count evaluated bound, Eval.finish, Run.bind_of_error inside]

end Calls

/-- A call with one argument that is a scalar. -/
theorem eval_single (offers : m.Offers operation) (gives : operation.Gives)
    (single : operation.params = [first]) {e : Node} {x y : Scalar}
    (evaluated : (calls (fuel + 2) s).eval e m = .ok (.scalar x) ready)
    (free : ready.pending = false)
    (ran : operation.run s (ready.given first x) = .ok (.scalar y) (ready.given first x)) :
    ∃ k, (calls (fuel + 3) s).eval (.call (.name operation.name) [e]) m = .ok (.scalar y) k ∧
      k.pending = false := by
  have all : Eval.all (calls (fuel + 2) s) [e] m = .ok [.scalar x] ready := by
    rw [Eval.all, Run.bind_of_ok evaluated]
    rfl
  have bound : Eval.bindParams [] (operation.params.zip [.scalar x]) ready =
      .ok () (ready.given first x) := by
    rw [single]
    exact Eval.bindParams_scalar List.not_mem_nil x [] ready
  refine ⟨_, eval_of_ok offers gives (by rw [single]; rfl) all bound free ran rfl, ?_⟩
  exact free

theorem run_toText (m : Machine) (x : Scalar) :
    Native.toText.run s (m.given first x) = .ok (.text x.bare) (m.given first x) := by
  have seen : Run.view (.scalar x) (m.given first x) = .ok (.scalar x) (m.given first x) := by
    rw [Run.view, Run.get_bind, Store.view]
    cases (m.given first x).store.cells.size <;> rfl
  rw [run, Run.bind_of_ok (Run.lookup_given m (by decide) x), Run.bind_of_ok seen]
  rfl

theorem run_toNumber (m : Machine) {t : Text} {y : Float}
    (read : readNumber? (Text.trim t) = some y) :
    Native.toNumber.run s (m.given first (.string t)) =
      .ok (.number y) (m.given first (.string t)) := by
  rw [run, Run.bind_of_ok (Run.lookup_given m (by decide) _), numberOf, read]
  rfl

end Native

/-! ## Number texts -/

theorem isSpace_eq_false {c : Char} (least : 0x20 < c.toNat) (most : c.toNat < 0x80) :
    Text.isSpace c = false := by
  rw [← Bool.not_eq_true]
  simp only [Text.isSpace, Bool.or_eq_true, Bool.and_eq_true, decide_eq_true_eq, beq_iff_eq]
  omega

theorem plain_range {b : UInt8} (bare : plain b = true) : 0x2B ≤ b.toNat ∧ b.toNat < 0x80 := by
  have kinds : (Text.byte '0' ≤ b ∧ b ≤ Text.byte '9') ∨ b = Text.byte '.' ∨ b = Text.byte 'e' ∨
      b = Text.byte '+' ∨ b = Text.byte '-' := by
    simpa [plain, Text.isDigit, or_assoc] using bare
  rcases kinds with ⟨least, most⟩ | rfl | rfl | rfl | rfl
  · have least : 48 ≤ b.toNat := UInt8.le_iff_toNat_le.mp least
    have most : b.toNat ≤ 57 := UInt8.le_iff_toNat_le.mp most
    omega
  all_goals decide

/-- What has the bytes of number texts only has no white space in it. -/
theorem solid_of_plain {t : Text} (all : ∀ b ∈ t, plain b = true) : Text.Solid t := by
  induction t with
  | nil => decide
  | cons b t ih =>
    obtain ⟨first, others⟩ := List.forall_mem_cons.mp all
    obtain ⟨least, most⟩ := plain_range first
    have read : Utf8.leadChar b t = some (Char.ofNat b.toNat, 0) :=
      if_pos (UInt8.lt_iff_toNat_lt.mpr most)
    have number : (Char.ofNat b.toNat).toNat = b.toNat := by
      rw [Char.ofNat, dif_pos (.inl (by omega))]
      rfl
    rw [Text.Solid, Utf8.pieces_char read]
    exact List.forall_mem_cons.mpr ⟨isSpace_eq_false (by omega) (by omega), ih others⟩

theorem solid_numberText (x : Float) : Text.Solid (numberText x) := by
  unfold numberText Layout.number
  cases Binary64.decode x with
  | nan => exact (by decide : Text.Solid "nan")
  | infinite negative =>
    cases negative with
    | false => exact (by decide : Text.Solid "inf")
    | true => exact (by decide : Text.Solid "-inf")
  | finite negative m q =>
    have size : ∀ b ∈ Layout.language.size m q, plain b = true := by
      unfold Layout.size
      split
      next => exact List.forall_mem_singleton.mpr rfl
      next =>
        obtain ⟨b, t, text, digit, rest⟩ := Layout.language.decimal_plain (Decimal.shortest m q)
        rw [text]
        exact List.forall_mem_cons.mpr ⟨plain_of_isDigit digit, rest⟩
    refine solid_of_plain ?_
    cases negative with
    | false => exact size
    | true => exact List.forall_mem_cons.mpr ⟨rfl, size⟩

/-- The text of a number is read as the number, and the text of a nan as a nan. -/
theorem readNumber?_numberText (x : Float) :
    ∃ y, readNumber? (numberText x) = some y ∧
      (y.toBits = x.toBits ∨ Binary64.isNan x = true ∧ Binary64.isNan y = true) := by
  cases nan : Binary64.isNan x with
  | true =>
    refine ⟨Binary64.nan, ?_, .inr ⟨rfl, by decide⟩⟩
    rw [Binary64.isNan] at nan
    rw [numberText, Layout.number]
    cases decoded : Binary64.decode x with
    | nan => rfl
    | infinite negative => simp [decoded] at nan
    | finite negative m q => simp [decoded] at nan
  | false =>
    refine ⟨x, readNumber?_number .language ?_, .inl rfl⟩
    intro decoded
    rw [Binary64.isNan, decoded] at nan
    cases nan

/-- The text of a number gives the number back, bit for bit, and the text of a nan gives a nan. This
holds of reading the text, and of every call of `tonumber` on the result of a call of `tostring` on an
expression with the number for its value. -/
theorem number_text_round_trip (x : Float) :
    ∃ y, readNumber? (numberText x) = some y ∧
      (y.toBits = x.toBits ∨ Binary64.isNan x = true ∧ Binary64.isNan y = true) ∧
      ∀ (fuel : Nat) (s : Surroundings) (m ready : Machine) (e : Node),
        m.Offers .toNumber → m.Offers .toText →
        (calls (fuel + 2) s).eval e m = .ok (.number x) ready → ready.pending = false →
        ∃ n, (calls (fuel + 4) s).eval
          (.call (.name "tonumber") [.call (.name "tostring") [e]]) m = .ok (.number y) n := by
  obtain ⟨y, read, same⟩ := readNumber?_numberText x
  refine ⟨y, read, same, ?_⟩
  intro fuel s m ready e reads writes evaluated free
  obtain ⟨k, written, free⟩ :=
    Native.eval_single writes (Native.gives_of_ne (by decide) (by decide)) rfl evaluated free
      (Native.run_toText ready _)
  have trimmed : readNumber? (Text.trim (numberText x)) = some y := by
    rw [Text.trim_of_solid (solid_numberText x), read]
  obtain ⟨n, given, -⟩ :=
    Native.eval_single reads (Native.gives_of_ne (by decide) (by decide)) rfl written free
      (Native.run_toNumber k trimmed)
  exact ⟨n, given⟩

theorem number_text_round_trip_smallest :
    ∃ y n, y.toBits = 1 ∧ (calls 4 {}).eval (.call (.name "tonumber")
      [.call (.name "tostring") [.literal (.number (Float.ofBits 1))]]) (Machine.start []) =
        .ok (.number y) n := by
  obtain ⟨y, -, same, calls⟩ := number_text_round_trip (Float.ofBits 1)
  have bits : y.toBits = 1 := by
    rcases same with same | ⟨nan, -⟩
    · rw [same]
      decide +kernel
    · exact absurd nan (by decide +kernel)
  obtain ⟨n, ran⟩ := calls 0 {} (Machine.start []) (Machine.start [])
    (.literal (.number (Float.ofBits 1))) ⟨5, rfl⟩ ⟨6, rfl⟩ rfl rfl
  exact ⟨y, n, bits, ran⟩

end EplLang
