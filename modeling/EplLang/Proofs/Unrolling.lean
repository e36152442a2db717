import EplLang.Proofs.Fuel
import EplLang.Proofs.Rounds
import EplLang.Proofs.Scope

/-!
# Loops and branches taken apart

A loop is a branch whose body goes on with the loop, and a chain of conditions is a branch inside
the last resort of a branch. Neither is a matter of course. Regions drop names when they end, and
taken apart there is a region inside the region, with more names when it starts. A loop compares
the signals with those that were pending when it started, and taken apart it starts again after the
first round. And fuel is spent in another way.

So the outcomes are compared that are reached with enough fuel (`Clocked.Same`). Two facts about
names carry the comparison, and both hold in every state: no statement drops a name
(`block_names`), and a completed expression adds at most names of built-in functions
(`test_close`), which every region keeps. Hence a region inside a region leaves no trace
(`close_twice`), and a branch may be taken as a region that starts before its condition
(`branch_same`).
-/

set_option autoImplicit false

namespace EplLang

/-! ## Names in any state -/

namespace Bindings

theorem names_subset_set (b : Bindings) (n : Text) (v : Value) : b.names ⊆ (b.set n v).names := by
  rw [names_set]
  split
  · exact List.Subset.refl _
  · exact List.subset_append_left _ _

/-- Closing keeps built-in names in any case. -/
theorem close_eq {outer inner : List Text} (first : outer ⊆ inner)
    (others : inner ⊆ outer ++ builtinNames) (b : Bindings) : b.close inner = b.close outer := by
  refine b.filter_congr fun n _ => ?_
  have same : n ∈ inner ∨ n ∈ builtinNames ↔ n ∈ outer ∨ n ∈ builtinNames := by
    constructor
    · rintro (member | builtin)
      · exact List.mem_append.mp (others member)
      · exact .inr builtin
    · exact Or.imp_left fun member => first member
  simpa [List.contains_eq_mem, ← Bool.decide_or] using same

theorem close_close {outer inner : List Text} (first : outer ⊆ inner) (b : Bindings) :
    close outer (b.close inner) = b.close outer := by
  refine (b.filter_filter _ _).trans (b.filter_congr fun n _ => ?_)
  have same : (n ∈ outer ∨ n ∈ builtinNames) ∧ (n ∈ inner ∨ n ∈ builtinNames) ↔
      n ∈ outer ∨ n ∈ builtinNames :=
    ⟨And.left, fun kept => ⟨kept, kept.imp_left fun member => first member⟩⟩
  simpa [List.contains_eq_mem, ← Bool.decide_or, ← Bool.decide_and] using same

end Bindings

/-- No work drops a name, and finished work of a finer grain adds at most names of built-in
functions. Nothing is asked of states, values and programs. -/
def naming : Discipline where
  state _ := True
  value _ _ := True
  expr _ := True
  stmt _ := True
  stop _ := True
  moves
    | .statement, m, n => m.bindings.names ⊆ n.bindings.names
    | _, m, n => m.bindings.names ⊆ n.bindings.names ∧
        n.bindings.names ⊆ m.bindings.names ++ Bindings.builtinNames

section Naming

variable {m n : Machine}

/-- Work that leaves the names alone. -/
theorem naming_same (same : n.bindings.names = m.bindings.names) : naming.Leads .expression m n :=
  ⟨trivial, same ▸ List.Subset.refl _, same ▸ List.subset_append_left _ _⟩

/-- Work that binds a name. -/
theorem naming_set {name : Text} {v : Value} (set : n.bindings = m.bindings.set name v) :
    naming.Leads .statement m n := by
  have kept : m.bindings.names ⊆ n.bindings.names := set ▸ Bindings.names_subset_set _ name v
  exact ⟨trivial, kept⟩

/-- Closing a region leaves the names it started with, and maybe those of built-in functions. -/
theorem naming_closed (kept : m.bindings.names ⊆ n.bindings.names) :
    naming.Leads .expression m (n.closedTo m.bindings.names) := by
  have names : (n.closedTo m.bindings.names).bindings.names =
      n.bindings.names.filter fun x =>
        m.bindings.names.contains x || Bindings.builtinNames.contains x :=
    n.bindings.names_close m.bindings.names
  refine ⟨trivial, fun x member => ?_, fun x member => ?_⟩
  · rw [names]
    exact List.mem_filter.mpr ⟨kept member, by simp [member]⟩
  · rw [names] at member
    simpa using (List.mem_filter.mp member).2

end Naming

theorem naming_laws : naming.RegionLaws where
  refl g m := by
    cases g with
    | expression | region => exact (naming_same rfl).2
    | statement => exact List.Subset.refl _
  trans {g m n k} first second := by
    cases g with
    | expression | region =>
        refine ⟨List.Subset.trans first.1 second.1, fun x member => ?_⟩
        rcases List.mem_append.mp (second.2 member) with before | builtin
        · exact first.2 before
        · exact List.mem_append_right _ builtin
    | statement => exact List.Subset.trans first second
  coarsen same := same
  widen moves := moves.1
  scalar _ _ := trivial
  named _ _ := trivial
  entry _ _ _ := trivial
  stays _ _ := trivial
  fault _ _ _ := trivial
  outOfFuel := trivial
  parts _ _ := trivial
  function _ _ := trivial
  meaning _ := .inr fun _ => trivial
  copied _ _ := ⟨naming_same rfl, trivial⟩
  pushed _ _ _ _ := ⟨naming_same rfl, trivial⟩
  world _ _ _ _ _ _ := naming_same rfl
  body _ _ := trivial
  stmtParts _ _ := trivial
  stmtBlocks _ _ _ := trivial
  stmtMeaning _ := .inr fun _ => trivial
  bound _ _ _ _ _ := naming_set rfl
  boundEntry _ _ _ _ _ _ := naming_set rfl
  stored _ _ _ _ _ _ := naming_same rfl
  prompt _ _ := trivial
  closed _ leads := naming_closed leads.2
  given _ leads _ := leads
  broken _ _ := naming_same rfl
  ended _ := naming_same rfl
  returned {m n k v} _ leads taken := by
    have names : (k.copied v).bindings.names = n.bindings.names := by
      rcases takeReturn_cases taken with ⟨_, _, rfl⟩ | ⟨rest, _, rfl⟩ <;> rfl
    have kept : m.bindings.names ⊆ (k.copied v).bindings.names := names ▸ leads.2
    exact ⟨naming_closed kept, trivial⟩
  marked _ _ _ := naming_same rfl
  entered _ _ := trivial
  left _ leads := leads
  importing _ _ := trivial
  resuming _ _ _ := naming_same rfl

theorem naming_admits (files : Text → Option Text) : naming.Admits files :=
  fun _ _ _ _ => ⟨fun _ _ _ _ _ _ => trivial, fun _ _ _ => trivial⟩

/-! ## Parts of statements -/

namespace Clocked

section Parts

variable (s : Surroundings)

/-- The test of a condition. -/
def test (c : Node) : Clocked Bool :=
  ⟨fun fuel => Eval.test (calls fuel s) c, fun more => Eval.test_below (calls_below more s) c⟩

/-- The first of some branches whose condition holds, or else the last resort. -/
def choose (otherwise : Option Block) (guards : List (Node × Block)) : Clocked Unit :=
  ⟨fun fuel => Eval.elifs (calls fuel s) otherwise guards,
    fun more => Eval.elifs_below (calls_below more s) otherwise guards⟩

/-- Rounds as long as a condition holds. -/
def rounds (c : Node) (b : Block) (d : Eval.Depth) : Clocked Unit :=
  ⟨fun fuel => Eval.whileRounds (calls fuel s) c b d fuel,
    fun more => Eval.whileRounds_below (calls_below more s) c b d more⟩

end Parts

/-- A computation as a region that started with the given names. -/
def within (outer : List Text) (x : Clocked Unit) : Clocked Unit :=
  x.bind fun _ => lift (Run.close outer)

/-- Nothing at all. -/
def skip : Clocked Unit := lift (pure ())

variable {s : Surroundings} {c : Node} {b : Block} {m k n : Machine} {outer : List Text}

theorem reaches_test {r : EStateM.Result Stop Machine Bool} :
    (test s c).Reaches m r ↔
      (∃ e n, Evaluates s c m (.error e n) ∧ r = .error e n) ∨
      ∃ v n, Evaluates s c m (.ok v n) ∧ r = .ok (Operator.truthy n.store v) n := by
  have unfolded : Same (test s c)
      ((eval s c).bind fun v => lift do return Operator.truthy (← get).store v) m :=
    .of_eq fun _ => rfl
  rw [unfolded r, reaches_bind]
  refine or_congr_right (exists_congr fun v => exists_congr fun n => and_congr_right fun _ => ?_)
  rw [reaches_lift]
  constructor
  · rintro ⟨rfl, _⟩
    rfl
  · rintro rfl
    exact ⟨rfl, nofun⟩

theorem reaches_test_ok {holds : Bool} :
    (test s c).Reaches m (.ok holds k) ↔
      ∃ v, Evaluates s c m (.ok v k) ∧ Operator.truthy k.store v = holds := by
  simp only [reaches_test, reduceCtorEq, and_false, exists_false, false_or,
    EStateM.Result.ok.injEq]
  constructor
  · rintro ⟨v, n, evaluated, rfl, rfl⟩
    exact ⟨v, evaluated, rfl⟩
  · rintro ⟨v, evaluated, rfl⟩
    exact ⟨v, k, evaluated, rfl, rfl⟩

theorem reaches_within {x : Clocked Unit} {r : EStateM.Result Stop Machine Unit} :
    (x.within outer).Reaches m r ↔ ∃ r', x.Reaches m r' ∧ r = Eval.closed outer r' := by
  rw [within, reaches_bind]
  constructor
  · rintro (⟨e, n, stopped, rfl⟩ | ⟨_, n, completed, closed⟩)
    · exact ⟨_, stopped, rfl⟩
    · exact ⟨_, completed, (reaches_lift.mp closed).1.symm⟩
  · rintro ⟨_ | ⟨e, n⟩, reaches, rfl⟩
    · exact .inr ⟨_, _, reaches, reaches_lift.mpr ⟨rfl, nofun⟩⟩
    · exact .inl ⟨e, n, reaches, rfl⟩

/-! ### Names -/

theorem test_moves {holds : Bool} (tested : (test s c).Reaches m (.ok holds k)) :
    naming.moves .expression m k := by
  obtain ⟨v, ⟨_, fuel, ran⟩, _⟩ := reaches_test_ok.mp tested
  have follows : naming.Follows .expression naming.value ((calls fuel s).eval c)
      ((calls fuel s).eval c) m :=
    Discipline.eval_follows naming_laws (naming_admits s.files) trivial trivial
  exact (follows.of_ran ran).1.2

theorem block_names (ran : RunsTo s b m (.ok () n)) : m.bindings.names ⊆ n.bindings.names := by
  obtain ⟨_, fuel, ran⟩ := ran
  have follows : naming.Follows .statement (fun _ _ => True) (Block.run fuel s b)
      (Block.run fuel s b) m :=
    Discipline.run_follows naming_laws (naming_admits s.files) trivial fun _ _ => trivial
  exact (follows.of_ran ran).1.2

/-- To the names before a condition or to those after it, a region is closed in the same way. -/
theorem test_close {holds : Bool} (tested : (test s c).Reaches m (.ok holds k)) :
    Run.close k.bindings.names = Run.close m.bindings.names := by
  obtain ⟨kept, others⟩ := test_moves tested
  refine congrArg modify (funext fun n => ?_)
  rw [Bindings.close_eq kept others]

/-- A region inside a region leaves no trace. -/
theorem close_twice {inner : List Text} (kept : outer ⊆ inner) (x : Clocked Unit) (m : Machine) :
    Same ((x.within inner).within outer) (x.within outer) m := by
  refine (Same.assoc x _ _ m).trans (.bind (.refl x m) fun _ n _ => .of_eq fun fuel => ?_)
  have closed : (n.closedTo inner).closedTo outer = n.closedTo outer := by
    simp only [Machine.closedTo, Bindings.close_close kept]
  exact congrArg (EStateM.Result.ok ()) closed

theorem bind_within {α : Type} (x : Clocked α) (f : α → Clocked Unit) (outer : List Text)
    (m : Machine) :
    Same ((x.bind f).within outer) (x.bind fun a => (f a).within outer) m :=
  .assoc x f _ m

theorem Same.within {x y : Clocked Unit} (same : Same x y m) (outer : List Text) :
    Same (x.within outer) (y.within outer) m :=
  same.bind fun _ n _ => .refl _ n

/-! ### Blocks -/

theorem block_of_free {c : Calls} (free : m.pending = false) (st : Stmt) (rest : Block) :
    Eval.block c (st :: rest) m = (c.exec st >>= fun _ => Eval.block c rest) m := by
  rw [Eval.block, Run.get_bind, free, if_neg Bool.false_ne_true]

theorem block_append (b b' : Block) (m : Machine) :
    Same (block s (b ++ b')) ((block s b).bind fun _ => block s b') m := by
  refine .of_eq fun fuel => ?_
  show Eval.block (calls fuel s) (b ++ b') m =
    (Eval.block (calls fuel s) b >>= fun _ => Eval.block (calls fuel s) b') m
  induction b generalizing m with
  | nil => rfl
  | cons st rest ih =>
      cases pending : m.pending with
      | true =>
          rw [Run.bind_of_ok (block_of_pending pending), block_of_pending pending,
            block_of_pending pending]
      | false =>
          rw [List.cons_append, block_of_free pending, Run.bind_congr fun _ n _ => ih n,
            Run.bind_of_eq (block_of_free pending st rest), bind_assoc]

theorem block_single (free : m.pending = false) (st : Stmt) :
    Same (block s [st]) (exec s st) m := by
  refine .of_eq fun fuel => (block_of_free free st []).trans ?_
  exact congrFun (bind_pure ((calls fuel s).exec st)) m

theorem block_pending (pending : m.pending = true) (b : Block) : Same (block s b) skip m :=
  .of_eq fun _ => block_of_pending pending

/-! ### Statements -/

theorem choose_cons (otherwise : Option Block) (more : List (Node × Block)) (m : Machine) :
    Same (choose s otherwise ((c, b) :: more))
      ((test s c).bind fun holds => cond holds (block s b) (choose s otherwise more)) m := by
  refine .of_eq fun fuel => Run.bind_congr fun holds n _ => ?_
  cases holds <;> rfl

theorem rounds_same (d : Eval.Depth) (m : Machine) :
    Same (rounds s c b d)
      ((test s c).bind fun holds => cond holds
        ((block s b).bind fun _ => (lift (Eval.roundEnds d)).bind fun ends =>
          cond ends skip (rounds s c b d))
        skip) m := by
  -- the rule of rounds, with a bound that is larger than the fuel of their parts
  have unrolled (fuel : Nat) (k : Machine) : ((test s c).bind fun holds => cond holds
      ((block s b).bind fun _ => (lift (Eval.roundEnds d)).bind fun ends =>
        cond ends skip (rounds s c b d)) skip).run fuel k =
      Eval.whileRounds (calls fuel s) c b d (fuel + 1) k := by
    refine Run.bind_congr fun holds _ _ => ?_
    cases holds with
    | false => rfl
    | true =>
        refine Run.bind_congr fun _ _ _ => Run.bind_congr fun ends _ _ => ?_
        cases ends <;> rfl
  refine .of_below (fun fuel => ⟨fuel, ?_⟩) fun fuel => ⟨fuel + 1, ?_⟩
  · rw [funext (unrolled fuel)]
    exact Eval.whileRounds_below (calls_below (Nat.le_refl fuel) s) c b d (Nat.le_succ fuel)
  · rw [funext (unrolled fuel)]
    exact Eval.whileRounds_below (calls_below (Nat.le_succ fuel) s) c b d (Nat.le_refl _)

theorem loop_same (line : Int) (m : Machine) :
    Same (exec s ⟨line, .loop c b⟩)
      ((rounds s c b ⟨m.breaks, m.returns.length⟩).within m.bindings.names) m :=
  (exec_same_rule s _ m).trans (.of_eq fun _ => rfl)

/-- A branch is a region that starts before its condition. -/
theorem branch_same (line : Int) (more : List (Node × Block)) (otherwise : Option Block)
    (m : Machine) :
    Same (exec s ⟨line, .branch c b more otherwise⟩)
      ((choose s otherwise ((c, b) :: more)).within m.bindings.names) m := by
  have chosen : Same ((choose s otherwise ((c, b) :: more)).within m.bindings.names)
      ((test s c).bind fun holds =>
        (cond holds (block s b) (choose s otherwise more)).within m.bindings.names) m :=
    ((choose_cons otherwise more m).within _).trans (bind_within _ _ _ m)
  have ruled : Same (rule s ⟨line, .branch c b more otherwise⟩)
      ((test s c).bind fun holds => (lift Run.names).bind fun outer =>
        (cond holds (block s b) (choose s otherwise more)).within outer) m := by
    refine .of_eq fun fuel => Run.bind_congr fun holds _ _ => Run.bind_congr fun outer _ _ => ?_
    cases holds <;> rfl
  refine (exec_same_rule s _ m).trans (ruled.trans (.trans (.bind (.refl _ m) ?_) chosen.symm))
  intro holds k tested r
  refine (Same.lifted (x := Run.names) rfl r).trans ?_
  rw [within, within, test_close tested]

/-- After the first round, a loop does what the same loop does that starts there, as a region of its
own. A pending return ends both. -/
theorem roundEnds_same (free : m.pending = false) (kept : m.bindings.names ⊆ n.bindings.names)
    (quiet : n.breaks = 0) (line : Int) :
    Same (((lift (Eval.roundEnds ⟨m.breaks, m.returns.length⟩)).bind fun ends =>
        cond ends skip (rounds s c b ⟨m.breaks, m.returns.length⟩)).within m.bindings.names)
      ((block s [⟨line, .loop c b⟩]).within m.bindings.names) n := by
  obtain ⟨noReturns, noBreaks⟩ := Machine.signals_of_not_pending free
  refine (bind_within _ _ _ n).trans ?_
  cases pending : n.pending with
  | true =>
      have ends : Eval.roundEnds ⟨m.breaks, m.returns.length⟩ n = .ok true n := by
        rw [Eval.roundEnds_of_asks ⟨free, pending⟩]
        obtain ⟨⟨_, _, _, _, breaks, _⟩, _⟩ := n
        cases quiet
        rfl
      exact .trans (.lifted ends) ((block_pending pending _).within _).symm
  | false =>
      obtain ⟨noReturns', noBreaks'⟩ := Machine.signals_of_not_pending pending
      have same : SameSignals m n :=
        ⟨noBreaks'.trans noBreaks.symm, noReturns'.trans noReturns.symm⟩
      have again : Same ((block s [⟨line, .loop c b⟩]).within m.bindings.names)
          ((rounds s c b ⟨n.breaks, n.returns.length⟩).within m.bindings.names) n :=
        (((block_single pending _).trans (loop_same line n)).within _).trans
          (close_twice kept _ n)
      rw [same.breaks, same.returns] at again
      exact .trans (.lifted (Eval.roundEnds_of_same same)) again.symm

/-- A loop and its first round before it. Both test the condition first, and both are over where it
does not hold. Where it holds, the body runs in both, and `roundEnds_same` compares what is left. -/
theorem loop_same_branch (free : m.pending = false)
    (quiet : ∀ v k n, Evaluates s c m (.ok v k) → Operator.truthy k.store v = true →
      RunsTo s b k (.ok () n) → n.breaks = 0)
    (line line' line'' : Int) :
    Same (exec s ⟨line, .loop c b⟩)
      (exec s ⟨line', .branch c (b ++ [⟨line'', .loop c b⟩]) [] none⟩) m := by
  have loop := (loop_same line m).trans
    (((rounds_same (s := s) (c := c) (b := b) _ m).within _).trans (bind_within _ _ _ m))
  have branch := (branch_same (s := s) (c := c) (b := b ++ [⟨line'', .loop c b⟩]) line' [] none
    m).trans (((choose_cons none [] m).within _).trans (bind_within _ _ _ m))
  refine loop.trans (.trans (.bind (.refl _ m) ?_) branch.symm)
  intro holds k tested
  cases holds with
  | false => exact .refl _ k
  | true =>
      refine (bind_within _ _ _ k).trans (.trans (.bind (.refl _ k) ?_)
        (((block_append b _ k).within _).trans (bind_within _ _ _ k)).symm)
      intro _ n ran
      obtain ⟨v, evaluated, truthy⟩ := reaches_test_ok.mp tested
      have kept : m.bindings.names ⊆ n.bindings.names :=
        List.Subset.trans (test_moves tested).1 (block_names ran)
      exact roundEnds_same free kept (quiet v k n evaluated truthy ran) line''

end Clocked

/-- **Loops unroll.** In a state without a pending signal a loop does what a branch does that has
its condition, and its body followed by the loop: both complete in the same state, both stop in the
same way and the same state, or neither ends. It is asked only that the first round, if there is
one, leaves no break pending. -/
theorem while_unrolls {s : Surroundings} {c : Node} {b : Block} {m : Machine}
    (free : m.pending = false)
    (quiet : ∀ v k n, Evaluates s c m (.ok v k) → Operator.truthy k.store v = true →
      RunsTo s b k (.ok () n) → n.breaks = 0)
    (line line' line'' : Int) (r : EStateM.Result Stop Machine Unit) :
    Executes s ⟨line, .loop c b⟩ m r ↔
      Executes s ⟨line', .branch c (b ++ [⟨line'', .loop c b⟩]) [] none⟩ m r :=
  Clocked.loop_same_branch free quiet line line' line'' r

/-- A loop whose body ends it by what it binds, and binds a name that does not outlive it. -/
theorem while_unrolls_single_round :
    let c : Node := .name "go"
    let b : Block :=
      [⟨2, .bind "go" (.literal (.boolean false))⟩, ⟨3, .bind "inner" (.name "go")⟩]
    let m := (Block.run 9 {} [⟨1, .bind "go" (.literal (.boolean true))⟩]).last (Machine.start [])
    ∃ k, Executes {} ⟨1, .loop c b⟩ m (.ok () k) ∧
      Executes {} ⟨1, .branch c (b ++ [⟨1, .loop c b⟩]) [] none⟩ m (.ok () k) ∧
      k.bindings.find? "go" = some (.scalar (.boolean false)) ∧
      k.bindings.find? "inner" = none := by
  intro c b m
  have evaluated : Evaluates {} c m (.ok (.scalar (.boolean true)) m) := ⟨nofun, 9, rfl⟩
  have completed : RunsTo {} b m (.ok () ((Block.run 9 {} b).last m)) := ⟨nofun, 9, rfl⟩
  have quiet : ∀ v k n, Evaluates {} c m (.ok v k) → Operator.truthy k.store v = true →
      RunsTo {} b k (.ok () n) → n.breaks = 0 := by
    intro v k n first _ ran
    cases first.unique evaluated
    cases ran.unique completed
    rfl
  have loop : Executes {} ⟨1, .loop c b⟩ m
      (.ok () (((calls 9 {}).exec ⟨1, .loop c b⟩).last m)) := ⟨nofun, 9, rfl⟩
  exact ⟨_, loop, (while_unrolls rfl quiet 1 1 1 _).mp loop, rfl, rfl⟩

/-! ## Branches inside branches -/

/-- A chain of conditions as branches one inside the other: each is the only statement of the last
resort of the one before it. -/
def Node.nested (line : Int) (otherwise : Option Block) : Node → Block → List (Node × Block) → Node
  | c, b, [] => .branch c b [] otherwise
  | c, b, (c', b') :: more => .branch c b [] (some [⟨line, nested line otherwise c' b' more⟩])

section Guards

variable (s : Surroundings)

/-- Conditions are evaluated one after another, and none of them holds. -/
inductive NoneHolds : List (Node × Block) → Machine → Machine → Prop where
  | nil {m : Machine} : NoneHolds [] m m
  | cons {c : Node} {b : Block} {rest : List (Node × Block)} {m k n : Machine} {v : Value} :
      Evaluates s c m (.ok v k) → Operator.truthy k.store v = false → NoneHolds rest k n →
      NoneHolds ((c, b) :: rest) m n

/-- What a chain of conditions comes to. The conditions are evaluated one after another. The body of
the first one that holds is all that is run after them; if none holds, it is the last resort. -/
inductive Picks (otherwise : Option Block) (guards : List (Node × Block)) (m : Machine) :
    EStateM.Result Stop Machine Unit → Prop where
  | holds {tried later : List (Node × Block)} {c : Node} {b : Block} {n k : Machine} {v : Value}
      {r : EStateM.Result Stop Machine Unit} :
      guards = tried ++ (c, b) :: later → NoneHolds s tried m n → Evaluates s c n (.ok v k) →
      Operator.truthy k.store v = true → RunsTo s b k r → Picks otherwise guards m r
  | fails {tried later : List (Node × Block)} {c : Node} {b : Block} {n k : Machine} {e : Stop} :
      guards = tried ++ (c, b) :: later → NoneHolds s tried m n → Evaluates s c n (.error e k) →
      Picks otherwise guards m (.error e k)
  | otherwise {n : Machine} {r : EStateM.Result Stop Machine Unit} :
      NoneHolds s guards m n → RunsTo s (otherwise.getD []) n r → Picks otherwise guards m r

end Guards

section Chains

variable {s : Surroundings} {otherwise : Option Block} {m : Machine}

theorem Picks.cons {c : Node} {b : Block} {rest : List (Node × Block)} {k : Machine} {v : Value}
    {r : EStateM.Result Stop Machine Unit} (evaluated : Evaluates s c m (.ok v k))
    (falsy : Operator.truthy k.store v = false) (picks : Picks s otherwise rest k r) :
    Picks s otherwise ((c, b) :: rest) m r := by
  cases picks with
  | holds split before evaluated' truthy ran =>
      exact .holds (congrArg (List.cons (c, b)) split) (.cons evaluated falsy before) evaluated'
        truthy ran
  | fails split before stopped =>
      exact .fails (congrArg (List.cons (c, b)) split) (.cons evaluated falsy before) stopped
  | otherwise before ran => exact .otherwise (.cons evaluated falsy before) ran

theorem picks_nil {r : EStateM.Result Stop Machine Unit} :
    Picks s otherwise [] m r ↔ RunsTo s (otherwise.getD []) m r := by
  constructor
  · rintro (⟨split, _, _, _, _⟩ | ⟨split, _, _⟩ | ⟨⟨⟩, ran⟩)
    · exact absurd split.symm (List.append_ne_nil_of_right_ne_nil _ nofun)
    · exact absurd split.symm (List.append_ne_nil_of_right_ne_nil _ nofun)
    · exact ran
  · exact .otherwise .nil

theorem picks_cons {c : Node} {b : Block} {rest : List (Node × Block)}
    {r : EStateM.Result Stop Machine Unit} :
    Picks s otherwise ((c, b) :: rest) m r ↔
      (∃ e k, Evaluates s c m (.error e k) ∧ r = .error e k) ∨
      (∃ v k, Evaluates s c m (.ok v k) ∧ Operator.truthy k.store v = true ∧ RunsTo s b k r) ∨
      ∃ v k, Evaluates s c m (.ok v k) ∧ Operator.truthy k.store v = false ∧
        Picks s otherwise rest k r := by
  constructor
  · intro picks
    cases picks with
    | holds split before evaluated truthy ran =>
        cases before with
        | nil =>
            cases split
            exact .inr (.inl ⟨_, _, evaluated, truthy, ran⟩)
        | cons first falsy others =>
            cases split
            exact .inr (.inr ⟨_, _, first, falsy, .holds rfl others evaluated truthy ran⟩)
    | fails split before stopped =>
        cases before with
        | nil =>
            cases split
            exact .inl ⟨_, _, stopped, rfl⟩
        | cons first falsy others =>
            cases split
            exact .inr (.inr ⟨_, _, first, falsy, .fails rfl others stopped⟩)
    | otherwise before ran =>
        cases before with
        | cons first falsy others => exact .inr (.inr ⟨_, _, first, falsy, .otherwise others ran⟩)
  · rintro (⟨e, k, stopped, rfl⟩ | ⟨v, k, evaluated, truthy, ran⟩ | ⟨v, k, evaluated, falsy, picks⟩)
    · exact .fails (List.nil_append _).symm .nil stopped
    · exact .holds (List.nil_append _).symm .nil evaluated truthy ran
    · exact .cons evaluated falsy picks

open Clocked in
/-- A choice takes the first branch whose condition holds. The induction is on the conditions. -/
theorem reaches_choose {guards : List (Node × Block)} {r : EStateM.Result Stop Machine Unit} :
    (choose s otherwise guards).Reaches m r ↔ Picks s otherwise guards m r := by
  induction guards generalizing m with
  | nil =>
      have last : Same (choose s otherwise []) (block s (otherwise.getD [])) m :=
        .of_eq fun _ => by cases otherwise <;> rfl
      exact (last r).trans picks_nil.symm
  | cons guard rest ih =>
      obtain ⟨c, b⟩ := guard
      rw [choose_cons otherwise rest m r, reaches_bind, picks_cons]
      refine or_congr ?_ ?_
      · simp [reaches_test]
      · constructor
        · rintro ⟨holds, k, tested, ran⟩
          obtain ⟨v, evaluated, truth⟩ := reaches_test_ok.mp tested
          cases holds with
          | true => exact .inl ⟨v, k, evaluated, truth, ran⟩
          | false => exact .inr ⟨v, k, evaluated, truth, ih.mp ran⟩
        · rintro (⟨v, k, evaluated, truthy, ran⟩ | ⟨v, k, evaluated, falsy, picks⟩)
          · exact ⟨true, k, reaches_test_ok.mpr ⟨v, evaluated, truthy⟩, ran⟩
          · exact ⟨false, k, reaches_test_ok.mpr ⟨v, evaluated, falsy⟩, ih.mpr picks⟩

/-- A condition that leaves no break leaves no signal. -/
theorem Evaluates.free {c : Node} {v : Value} {k : Machine} (evaluated : Evaluates s c m (.ok v k))
    (free : m.pending = false) (quiet : k.breaks = 0) : k.pending = false := by
  obtain ⟨_, fuel, ran⟩ := evaluated
  obtain ⟨noReturns, noBreaks⟩ := Machine.signals_of_not_pending free
  have state : m.Balanced := ⟨by simp [noReturns], by simp [noBreaks]⟩
  have follows : balanced.Follows .expression balanced.value ((calls fuel s).eval c)
      ((calls fuel s).eval c) m :=
    Discipline.eval_follows balanced_laws (balanced_admits s.files) state trivial
  have noReturns' : k.returns = [] := (follows.of_ran ran).1.2 noReturns
  simp [Machine.pending, quiet, noReturns']

open Clocked in
/-- A chain of conditions does what branches one inside the other do. The induction is on the
conditions after the first; the region of the inner branch starts where the first condition, which
does not hold, is over. -/
theorem nested_same {c : Node} {b : Block} {more : List (Node × Block)} (free : m.pending = false)
    (quiet : ∀ tried k, tried <+: (c, b) :: more → NoneHolds s tried m k → k.breaks = 0)
    (line line' line'' : Int) :
    Same (exec s ⟨line, .branch c b more otherwise⟩)
      (exec s ⟨line', .nested line'' otherwise c b more⟩) m := by
  induction more generalizing c b m line line' with
  | nil => exact (branch_same line [] otherwise m).trans (branch_same line' [] otherwise m).symm
  | cons guard more ih =>
      obtain ⟨c', b'⟩ := guard
      have flat := (branch_same (s := s) (c := c) (b := b) line ((c', b') :: more) otherwise
        m).trans (((choose_cons otherwise _ m).within _).trans (bind_within _ _ _ m))
      have deep := (branch_same (s := s) (c := c) (b := b) line' []
        (some [⟨line'', .nested line'' otherwise c' b' more⟩]) m).trans
        (((choose_cons _ [] m).within _).trans (bind_within _ _ _ m))
      refine flat.trans (.trans (.bind (.refl _ m) ?_) deep.symm)
      intro holds k tested
      cases holds with
      | true => exact .refl _ k
      | false =>
          obtain ⟨v, evaluated, falsy⟩ := reaches_test_ok.mp tested
          have quiet' : ∀ tried n, tried <+: (c', b') :: more → NoneHolds s tried k n →
              n.breaks = 0 := fun tried n first none =>
            quiet ((c, b) :: tried) n (List.prefix_cons_inj _ |>.mpr first)
              (.cons evaluated falsy none)
          have free' : k.pending = false :=
            evaluated.free free (quiet' [] k List.nil_prefix .nil)
          have inner : Same (choose s (some [⟨line'', .nested line'' otherwise c' b' more⟩]) [])
              ((choose s otherwise ((c', b') :: more)).within k.bindings.names) k :=
            (block_single free' _).trans
              ((ih free' quiet' line'' line'').symm.trans (branch_same line'' more otherwise k))
          exact ((inner.within _).trans (close_twice (test_moves tested).1 _ k)).symm

end Chains

/-- **A chain of conditions is branches one inside the other**, each in the last resort of the one
before it: both complete in the same state, both stop in the same way and the same state, or
neither ends. What a chain comes to is what the body of its first condition that holds comes to,
and no later condition is evaluated (`Picks`). It is asked only that no signal is pending and that
conditions leave no break when they are evaluated one after another and none holds. -/
theorem elifs_nest {s : Surroundings} {c : Node} {b : Block} {more : List (Node × Block)}
    {otherwise : Option Block} {m : Machine} (free : m.pending = false)
    (quiet : ∀ tried k, tried <+: (c, b) :: more → NoneHolds s tried m k → k.breaks = 0)
    (line line' line'' : Int) (r : EStateM.Result Stop Machine Unit) :
    (Executes s ⟨line, .branch c b more otherwise⟩ m r ↔
      Executes s ⟨line', .nested line'' otherwise c b more⟩ m r) ∧
    (Executes s ⟨line, .branch c b more otherwise⟩ m r ↔
      ∃ r', Picks s otherwise ((c, b) :: more) m r' ∧ r = Eval.closed m.bindings.names r') := by
  refine ⟨nested_same free quiet line line' line'' r, ?_⟩
  refine (Clocked.branch_same line more otherwise m r).trans (Clocked.reaches_within.trans ?_)
  simp only [reaches_choose]

/-- The second condition holds. The third one would fail. -/
theorem elifs_nest_second_holds :
    let b : Block := [⟨2, .bind "y" (.literal .null)⟩]
    let more : List (Node × Block) := [(.literal (.boolean true), b), (.name "missing", [])]
    let m := Machine.start []
    Picks {} none ((.literal (.boolean false), []) :: more) m (.ok () ((Block.run 9 {} b).last m)) ∧
    Executes {} ⟨1, .nested 1 none (.literal (.boolean false)) [] more⟩ m (.ok () m) := by
  intro b more m
  have first : Evaluates {} (.literal (.boolean false)) m (.ok (.scalar (.boolean false)) m) :=
    ⟨nofun, 9, rfl⟩
  have second : Evaluates {} (.literal (.boolean true)) m (.ok (.scalar (.boolean true)) m) :=
    ⟨nofun, 9, rfl⟩
  have quiet : ∀ tried k, tried <+: (.literal (.boolean false), []) :: more →
      NoneHolds {} tried m k → k.breaks = 0 := by
    intro tried k start none
    cases none with
    | nil => rfl
    | cons evaluated _ others =>
        obtain ⟨⟨⟩, next⟩ := List.cons_prefix_cons.mp start
        cases first.unique evaluated
        cases others with
        | nil => rfl
        | cons evaluated' falsy _ =>
            obtain ⟨⟨⟩, _⟩ := List.cons_prefix_cons.mp next
            cases second.unique evaluated'
            cases falsy
  have picks : Picks {} none ((.literal (.boolean false), []) :: more) m
      (.ok () ((Block.run 9 {} b).last m)) :=
    .cons first rfl (.holds (List.nil_append _).symm .nil second rfl ⟨nofun, 9, rfl⟩)
  obtain ⟨nested, chain⟩ := elifs_nest rfl quiet 1 1 1 (.ok () m)
  exact ⟨picks, nested.mp (chain.mpr ⟨_, picks, rfl⟩)⟩

end EplLang
