import EplLang.Proofs.Balance
import EplLang.Proofs.Signal

/-!
# The rounds of a loop

A loop over a range goes through integers, a loop over a collection through keys. Both know the
list of these items when they start, and both make a round for each of them: they enter the item,
which binds the name of the loop, and run the body. `Eval.rounds` is this common form.

`Eval.Rounds` says what rounds do without reference to the record of signals that they work with:
the body is run for one item after another, each run starts in the state that the run before it
left, and the loop is over after the first run that fails or leaves a break or a return pending,
or when there are no more items. Every loop goes this way (`exists_rounds`). A signal that was
pending already when the loop started ends no loop; with one, runs of a body do nothing.
-/

set_option autoImplicit false

namespace EplLang

namespace Eval

variable {α : Type}

/-- Rounds for the items of a list. -/
def rounds (c : Calls) (body : Block) (enter : α → Machine → Machine) (d : Depth) :
    List α → Run Unit
  | [] => pure ()
  | a :: rest => do
    modify (enter a)
    block c body
    if ← roundEnds d then pure () else rounds c body enter d rest

/-! ## Loops over ranges and collections -/

theorem range_succ (i : Int) (count : Nat) :
    Int.range i (i + (count + 1 : Nat)) = i :: Int.range (i + 1) (i + 1 + count) := by
  have longer : (i + (count + 1 : Nat) - i).toNat = count + 1 := by omega
  have shorter : (i + 1 + count - (i + 1)).toNat = count := by omega
  rw [Int.range, Int.range, longer, shorter, List.range_succ_eq_map, List.map_cons, List.map_map]
  refine congrArg₂ List.cons (by simp) (List.map_congr_left fun k _ => ?_)
  simp only [Function.comp_apply, Nat.succ_eq_add_one, Int.natCast_add]
  omega

/-- A round of a range binds the name of the loop to the double of an integer. -/
def enterInteger (n : Text) (i : Int) (m : Machine) : Machine :=
  m.boundTo n (.number (Binary64.ofInt i))

theorem find?_enterInteger (n : Text) (i : Int) (m : Machine) :
    (enterInteger n i m).bindings.find? n = some (.number (Binary64.ofInt i)) := by
  rw [enterInteger, Machine.boundTo, Value.number, Store.copy_scalar]
  exact Bindings.find?_set _ n _

theorem rangeRounds_eq (c : Calls) (n : Text) (body : Block) (d : Depth) (count : Nat) (i : Int) :
    rangeRounds c n body d count i =
      rounds c body (enterInteger n) d (Int.range i (i + count)) := by
  induction count generalizing i with
  | zero => simp [rangeRounds, Int.range, rounds]
  | succ count ih =>
      have binding : Run.bindName n (.number (Binary64.ofInt i)) = modify (enterInteger n i) := by
        refine congrArg modify (funext fun m => ?_)
        simp only [enterInteger, Machine.boundTo, Machine.copied, Value.number, Store.copy_scalar]
      rw [rangeRounds, range_succ, rounds, binding, ih]

/-- A round of a collection binds the name of the loop to an object that holds a key and a copy
of what is at the key now. -/
def enterKey (n : Text) (ref : Nat) (k : Scalar) (m : Machine) : Machine :=
  m.boundToEntry n k (((m.store.get ref).get? k).getD .null)

theorem eachRounds_eq (c : Calls) (n : Text) (ref : Nat) (body : Block) (d : Depth)
    (keys : List Scalar) :
    eachRounds c n ref body d keys = rounds c body (enterKey n ref) d keys := by
  induction keys with
  | nil => rfl
  | cons k rest ih =>
      rw [eachRounds, rounds, ih]
      rfl

/-! ## What rounds do -/

/-- A run of the body leaves a break or a return pending. What was pending when the loop started
does not count. -/
def Asks (start n : Machine) : Prop := start.pending = false ∧ n.pending = true

/-- The runs of a body for the items of a list, each with the state in which its item is entered,
and the outcome of them all. A break that ends them is taken, a return stays. -/
inductive Rounds (c : Calls) (body : Block) (enter : α → Machine → Machine) (start : Machine) :
    List α → Machine → List (α × Machine) → EStateM.Result Stop Machine Unit → Prop where
  | done {m : Machine} : Rounds c body enter start [] m [] (.ok () m)
  | fails {a : α} {rest : List α} {m n : Machine} {e : Stop} :
      block c body (enter a m) = .error e n →
      Rounds c body enter start (a :: rest) m [(a, m)] (.error e n)
  | ends {a : α} {rest : List α} {m n : Machine} :
      block c body (enter a m) = .ok () n → Asks start n →
      Rounds c body enter start (a :: rest) m [(a, m)] (.ok () { n with breaks := n.breaks - 1 })
  | next {a : α} {rest : List α} {m n : Machine} {runs : List (α × Machine)}
      {outcome : EStateM.Result Stop Machine Unit} :
      block c body (enter a m) = .ok () n → ¬Asks start n →
      Rounds c body enter start rest n runs outcome →
      Rounds c body enter start (a :: rest) m ((a, m) :: runs) outcome

theorem roundEnds_of_asks {start n : Machine} (asks : Asks start n) :
    roundEnds ⟨start.breaks, start.returns.length⟩ n =
      .ok true { n with breaks := n.breaks - 1 } := by
  obtain ⟨free, pending⟩ := asks
  obtain ⟨noReturns, noBreaks⟩ := Machine.signals_of_not_pending free
  rw [roundEnds, Run.get_bind, noReturns, noBreaks]
  by_cases broken : 0 < n.breaks
  · rw [if_pos broken]
    rfl
  · have none : n.breaks = 0 := by omega
    have returned : 0 < n.returns.length := by
      refine List.length_pos_iff.mpr fun empty => ?_
      simp [Machine.pending, none, empty] at pending
    rw [if_neg broken, List.length_nil, decide_eq_true returned]
    obtain ⟨⟨_, _, _, _, breaks, _⟩, _⟩ := n
    cases none
    rfl

theorem roundEnds_of_same {start n : Machine} (same : SameSignals start n) :
    roundEnds ⟨start.breaks, start.returns.length⟩ n = .ok false n := by
  rw [roundEnds, Run.get_bind, same.breaks, same.returns, if_neg (Nat.lt_irrefl _),
    decide_eq_false (Nat.lt_irrefl _)]
  rfl

/-- A run that does not ask for an end leaves the signals that were there when the loop started,
as the runs before it did. -/
theorem same_of_not_asks {c : Calls} {body : Block} {start m n : Machine}
    (same : SameSignals start m) (ran : block c body m = .ok () n) (quiet : ¬Asks start n) :
    SameSignals start n := by
  cases pending : start.pending with
  | true =>
      have stopped : m.pending = true := by
        rw [← pending, Machine.pending, Machine.pending, same.breaks, same.returns]
      rw [block_of_pending stopped] at ran
      cases ran
      exact same
  | false =>
      have free : n.pending = false := Bool.eq_false_iff.mpr fun left => quiet ⟨pending, left⟩
      obtain ⟨returns, breaks⟩ := Machine.signals_of_not_pending pending
      obtain ⟨returns', breaks'⟩ := Machine.signals_of_not_pending free
      exact ⟨breaks'.trans breaks.symm, returns'.trans returns.symm⟩

/-- **A loop makes its rounds.** The induction is on the items; the signals are those that were
there when the loop started whenever an item is entered. -/
theorem exists_rounds (c : Calls) (body : Block) {enter : α → Machine → Machine}
    (keeps : ∀ a m, SameSignals m (enter a m)) {start m : Machine} (items : List α)
    (same : SameSignals start m) :
    ∃ runs, Rounds c body enter start items m runs
      (rounds c body enter ⟨start.breaks, start.returns.length⟩ items m) := by
  induction items generalizing m with
  | nil => exact ⟨[], .done⟩
  | cons a rest ih =>
      have entered : rounds c body enter ⟨start.breaks, start.returns.length⟩ (a :: rest) m =
          (block c body >>= fun _ => roundEnds ⟨start.breaks, start.returns.length⟩ >>= fun ends =>
            if ends then pure () else rounds c body enter ⟨start.breaks, start.returns.length⟩ rest)
            (enter a m) := rfl
      have signals := same.trans (keeps a m)
      rw [entered]
      cases ran : block c body (enter a m) with
      | error e n =>
          rw [Run.bind_of_error ran]
          exact ⟨[(a, m)], .fails ran⟩
      | ok _ n =>
          rw [Run.bind_of_ok ran]
          by_cases asks : Asks start n
          · rw [Run.bind_of_ok (roundEnds_of_asks asks)]
            exact ⟨[(a, m)], .ends ran asks⟩
          · have after := same_of_not_asks signals ran asks
            obtain ⟨runs, others⟩ := ih after
            rw [Run.bind_of_ok (roundEnds_of_same after)]
            exact ⟨(a, m) :: runs, .next ran asks others⟩

namespace Rounds

variable {c : Calls} {body : Block} {enter : α → Machine → Machine} {start m : Machine}
  {items : List α} {runs : List (α × Machine)} {outcome : EStateM.Result Stop Machine Unit}
  (rounds : Rounds c body enter start items m runs outcome)
include rounds

/-- The body is run for the items in their order, from the first one on. -/
theorem items_first : runs.map Prod.fst <+: items := by
  induction rounds with
  | done => exact List.prefix_refl _
  | fails _ => exact ⟨_, rfl⟩
  | ends _ _ => exact ⟨_, rfl⟩
  | next _ _ _ ih => exact List.prefix_cons_inj _ |>.mpr ih

theorem length_le : runs.length ≤ items.length := by
  have shorter := rounds.items_first.length_le
  rwa [List.length_map] at shorter

/-- What holds at the start and is kept by entering an item and by running the body holds
whenever an item is entered. -/
theorem invariant {P : Machine → Prop} (first : P m) (entered : ∀ a k, P k → P (enter a k))
    (ran : ∀ k n, P k → block c body k = .ok () n → P n) : ∀ run ∈ runs, P run.2 := by
  induction rounds with
  | done => exact fun _ member => absurd member List.not_mem_nil
  | fails _ =>
      rintro _ (_ | ⟨_, ⟨⟩⟩)
      exact first
  | ends _ _ =>
      rintro _ (_ | ⟨_, ⟨⟩⟩)
      exact first
  | next completed _ _ ih =>
      rintro _ (_ | ⟨_, later⟩)
      · exact first
      · exact ih (ran _ _ (entered _ _ first) completed) _ later

end Rounds

/-! ## Loops as regions -/

/-- The outcome of a region that started with the given names bound. -/
def closed (outer : List Text) :
    EStateM.Result Stop Machine Unit → EStateM.Result Stop Machine Unit
  | .ok _ n => .ok () (n.closedTo outer)
  | .error e n => .error e n

theorem loopRegion_rounds (c : Calls) (body : Block) {enter : α → Machine → Machine}
    (keeps : ∀ a m, SameSignals m (enter a m)) (items : List α) (m : Machine) :
    ∃ runs outcome, Rounds c body enter m items m runs outcome ∧
      loopRegion (fun d => Eval.rounds c body enter d items) m =
        closed m.bindings.names outcome := by
  obtain ⟨runs, rounds⟩ := exists_rounds c body keeps items (.refl m)
  refine ⟨runs, _, rounds, ?_⟩
  have unfolded : loopRegion (fun d => Eval.rounds c body enter d items) m =
      (Eval.rounds c body enter ⟨m.breaks, m.returns.length⟩ items >>= fun _ =>
        Run.close m.bindings.names) m := rfl
  rw [unfolded]
  cases ran : Eval.rounds c body enter ⟨m.breaks, m.returns.length⟩ items m with
  | ok _ n =>
      rw [Run.bind_of_ok ran]
      rfl
  | error e n =>
      rw [Run.bind_of_error ran]
      rfl

end Eval

end EplLang
