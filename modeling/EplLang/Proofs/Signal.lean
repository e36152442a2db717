import EplLang.Proofs.Flow
import EplLang.Proofs.Holding

/-!
# Signals reach their consumer

A break and a return are signals: they are put on record, every block stops while
one is on record, and the loop or the call that they are meant for takes them off
again by comparing with the number it found at its start. This works because the
signals balance. An expression leaves the record as it was, however many calls it
makes; a statement adds at most one signal, and if it adds one, that signal is the
last thing that happened in it.

Said the other way round, the record does the work of structured control flow
(`EplLang.Proofs.Flow`): a statement ends in the state in which the structured
statement ends, with the signal for its way to end added (`Realizes`). The module
proves this of every form of statement and ties the forms together with calls. The
assumption is that no function body and no program holds a break outside of all
its loops; function values carry the assumption along (`EplLang.Proofs.Holding`).
-/

set_option autoImplicit false

namespace EplLang

/-! ## Breaks in a program -/

namespace Node

/-- A statement holds a break that is in none of its loops. -/
inductive Leaves : Node → Prop where
  | leave : Leaves .leave
  | branch {test : Node} {body : Block} {elifs : List (Node × Block)} {otherwise : Option Block}
      {inner : Block} {st : Stmt} : inner ∈ (Node.branch test body elifs otherwise).blocks →
      st ∈ inner → Leaves st.node → Leaves (.branch test body elifs otherwise)

/-- The statements that repeat their body. -/
def IsLoop : Node → Prop
  | .loop .. | .range .. | .each .. => True
  | _ => False

theorem IsLoop.not_leaves {n : Node} (loop : n.IsLoop) : ¬n.Leaves := by
  intro leaves
  cases leaves <;> exact loop

end Node

/-- Every break of a block is in a loop of the block. -/
def Block.BreakClosed (body : Block) : Prop := ∀ st ∈ body, ¬st.node.Leaves

/-- The functions that may occur: every break in a body is in a loop there. -/
def Grammar.breakClosed : Grammar := .literals fun _ _ body => body.BreakClosed

/-- A program in which every break is in a loop, of the program itself or of the
function that it stands in. -/
def Block.Tame (body : Block) : Prop :=
  body.BreakClosed ∧ ∀ st ∈ body, Grammar.breakClosed.stmt st

/-- Every file that holds a program holds a tame one. -/
def Surroundings.Tame (s : Surroundings) : Prop :=
  ∀ path source, s.files path = some source →
    ∀ site body next, parseSource site source = .ok (body, next) → body.Tame

theorem Grammar.breakClosed_laws : Grammar.breakClosed.Laws := by
  refine literals_laws fun site operation st member leaves => ?_
  cases operation <;> (rw [List.mem_singleton.mp member] at leaves; cases leaves)

theorem holding_breakClosed : (holding .breakClosed).RegionLaws :=
  holding_laws Grammar.breakClosed_laws

theorem Surroundings.Tame.admits {s : Surroundings} (tame : s.Tame) :
    (holding .breakClosed).Admits s.files :=
  fun _ path source file => ⟨fun site body next st parsed member =>
    (tame path source file site body next parsed).2 st member, fun _ _ _ => trivial⟩

/-! ## The record of signals -/

/-- The same signals are on record in two states. -/
structure SameSignals (m n : Machine) : Prop where
  breaks : n.breaks = m.breaks
  returns : n.returns = m.returns

theorem SameSignals.refl (m : Machine) : SameSignals m m := ⟨rfl, rfl⟩

theorem SameSignals.trans {m n k : Machine} (first : SameSignals m n) (second : SameSignals n k) :
    SameSignals m k :=
  ⟨second.breaks.trans first.breaks, second.returns.trans first.returns⟩

theorem SameSignals.boundTo (m : Machine) (n : Text) (v : Value) : SameSignals m (m.boundTo n v) :=
  ⟨rfl, rfl⟩

/-- Completed expressions change no signals. -/
def quiet : Discipline :=
  { holding .breakClosed with
    moves := fun
      | .expression, m, n => m.store.cells.size ≤ n.store.cells.size ∧ SameSignals m n
      | _, m, n => m.store.cells.size ≤ n.store.cells.size }

theorem quiet_leads {m n : Machine} (leads : (holding .breakClosed).Leads .expression m n)
    (signals : SameSignals m n) : quiet.Leads .expression m n :=
  ⟨leads.1, leads.2, signals⟩

theorem quiet_laws : quiet.Laws where
  refl g m := by
    cases g with
    | expression => exact ⟨Nat.le_refl _, .refl m⟩
    | region | statement => exact Nat.le_refl _
  trans {g m n k} first second := by
    cases g with
    | expression => exact ⟨Nat.le_trans first.1 second.1, first.2.trans second.2⟩
    | region | statement => exact Nat.le_trans first second
  coarsen moves := moves.1
  widen longer := longer
  scalar := holding_breakClosed.scalar
  named := holding_breakClosed.named
  entry {_ shape _ _ _} state container member :=
    @holding_breakClosed.entry _ shape _ _ _ state container member
  stays := holding_breakClosed.stays
  fault := holding_breakClosed.fault
  outOfFuel := holding_breakClosed.outOfFuel
  parts := holding_breakClosed.parts
  function := holding_breakClosed.function
  meaning := holding_breakClosed.meaning
  copied state value := by
    obtain ⟨leads, copy⟩ := holding_breakClosed.copied state value
    exact ⟨quiet_leads leads ⟨rfl, rfl⟩, copy⟩
  pushed shape _ state values := by
    obtain ⟨leads, made⟩ := holding_breakClosed.pushed shape state values
    exact ⟨quiet_leads leads ⟨rfl, rfl⟩, made⟩
  stored {_ shape _} k _ assigns state container value :=
    quiet_leads (@holding_breakClosed.stored _ shape _ k _ assigns state container value) ⟨rfl, rfl⟩
  world printed input slept drawn performs state :=
    quiet_leads (holding_breakClosed.world printed input slept drawn performs state) ⟨rfl, rfl⟩

theorem quiet_signals {α : Type} {P : Store → α → Prop} {x : Run α} {a : α} {m n : Machine}
    (follows : quiet.Follows .expression P x x m) (ran : x m = .ok a n) : SameSignals m n :=
  (follows.of_ran ran).1.2.2

/-- What keeps values fit and changes no signals when it completes. -/
theorem quiet_follows {α : Type} {P : Store → α → Prop} {x : Run α} {m : Machine}
    (follows : (holding .breakClosed).Follows .expression P x x m)
    (signals : ∀ a n, x m = .ok a n → SameSignals m n) : quiet.Follows .expression P x x m := by
  apply Discipline.FollowsFrom.consequence follows
  · intro a n ran leads holds
    exact ⟨⟨leads.1, leads.2, signals a n ran⟩, holds⟩
  · intro e n leads stops
    exact ⟨leads, stops⟩

/-! ## Signals for ways to end -/

/-- A computation ends as a structured one does, with the signal for its way to
end added to the record, or stops as that one does. Apart from the signal, the
record stays as it was. -/
inductive Realizes (leaves : Prop) (x : Run Unit) (y : Run Flow) (m : Machine) : Prop where
  | ended {flow : Flow} {n : Machine} : y m = .ok flow n → x m = .ok () (flow.signal n) →
      n.Fits .breakClosed → SameSignals m n → (flow = .left → leaves) → Realizes leaves x y m
  | stopped {e : Stop} {n : Machine} : y m = .error e n → x m = .error e n →
      Realizes leaves x y m

theorem Flow.pending_signal (flow : Flow) (stops : flow ≠ .next) (m : Machine) :
    (flow.signal m).pending = true := by
  cases flow with
  | next => exact absurd rfl stops
  | left => simp [signal, Machine.pending]
  | gave v => simp [signal, Machine.pending]

/-- A block does nothing while a signal is on record. -/
theorem block_of_pending {c : Calls} {body : Block} {m : Machine} (pending : m.pending = true) :
    Eval.block c body m = .ok () m := by
  cases body with
  | nil => rfl
  | cons st rest =>
      have stops : Eval.block c (st :: rest) m =
          (if m.pending then pure () else do c.exec st; Eval.block c rest : Run Unit) m := rfl
      rw [stops, if_pos pending]
      rfl

section Rules

variable {leaves : Prop} {m : Machine}

namespace Realizes

theorem mono {leaves' : Prop} {x : Run Unit} {y : Run Flow} (realizes : Realizes leaves x y m)
    (more : leaves → leaves') : Realizes leaves' x y m := by
  cases realizes with
  | ended flow actual fits signals left =>
      exact .ended flow actual fits signals fun same => more (left same)
  | stopped flow actual => exact .stopped flow actual

theorem eq_signalled {x : Run Unit} {y : Run Flow} (realizes : Realizes leaves x y m) :
    x m = Flow.signalled y m := by
  cases realizes with
  | ended flow actual _ _ _ =>
      rw [actual, Flow.signalled, Run.bind_of_ok flow]
      rfl
  | stopped flow actual => rw [actual, Flow.signalled, Run.bind_of_error flow]

theorem of_ran {x : Run Unit} {y : Run Flow} (realizes : Realizes leaves x y m) {flow : Flow}
    {n : Machine} (ran : y m = .ok flow n) : SameSignals m n ∧ (flow = .left → leaves) := by
  cases realizes with
  | ended flow' _ _ signals left =>
      rw [ran] at flow'
      cases flow'
      exact ⟨signals, left⟩
  | stopped flow' _ =>
      rw [ran] at flow'
      cases flow'

/-- What does not leave a loop leaves the breaks as they were. -/
theorem breaks_eq {x : Run Unit} {y : Run Flow} (realizes : Realizes leaves x y m)
    (inside : ¬leaves) {n : Machine} (ran : x m = .ok () n) : n.breaks = m.breaks := by
  cases realizes with
  | @ended flow k _ actual _ signals left =>
      rw [ran] at actual
      cases actual
      cases flow with
      | next => exact signals.breaks
      | left => exact absurd (left rfl) inside
      | gave v => exact signals.breaks
  | stopped _ actual =>
      rw [ran] at actual
      cases actual

/-- A step that changes no signals may come first. -/
theorem step {x x' : Run Unit} {y y' : Run Flow} {k : Machine} (next : Realizes leaves x y k)
    (actual : x' m = x k) (flow : y' m = y k) (signals : SameSignals m k) :
    Realizes leaves x' y' m := by
  cases next with
  | ended flow' actual' fits signals' left =>
      exact .ended (flow.trans flow') (actual.trans actual') fits (signals.trans signals') left
  | stopped flow' actual' => exact .stopped (flow.trans flow') (actual.trans actual')

/-- An expression may come first. -/
theorem bind {α : Type} {P : Store → α → Prop} {x : Run α} {f : α → Run Unit} {h : α → Run Flow}
    (first : quiet.Follows .expression P x x m)
    (next : ∀ a n, n.Fits .breakClosed → SameSignals m n → P n.store a →
      Realizes leaves (f a) (h a) n) :
    Realizes leaves (x >>= f) (x >>= h) m := by
  cases ran : x m with
  | ok a n =>
      obtain ⟨⟨fits, _, signals⟩, holds⟩ := first.of_ran ran
      exact (next a n fits signals holds).step (Run.bind_of_ok ran) (Run.bind_of_ok ran) signals
  | error e n => exact .stopped (Run.bind_of_error ran) (Run.bind_of_error ran)

theorem pure (fits : m.Fits .breakClosed) : Realizes leaves (pure ()) (pure .next) m :=
  .ended rfl rfl fits (.refl m) nofun

theorem fail (cause : Cause) : Realizes leaves (Run.fail cause) (Run.fail cause) m :=
  .stopped rfl rfl

/-- A statement that changes no signals ends in the usual way. -/
theorem simple {x : Run Unit}
    (quiet : ∀ n, x m = .ok () n → n.Fits .breakClosed ∧ SameSignals m n) :
    Realizes leaves x (do x; return .next) m := by
  cases ran : x m with
  | ok a n =>
      obtain ⟨fits, signals⟩ := quiet n ran
      exact .ended (Run.bind_of_ok ran) ran fits signals nofun
  | error e n => exact .stopped (Run.bind_of_error ran) ran

/-- Names are dropped at the end of a region. -/
theorem close {x : Run Unit} {y : Run Flow} (outer : List Text) (inside : Realizes leaves x y m) :
    Realizes leaves (do x; Run.close outer) (do let flow ← y; Run.close outer; return flow) m := by
  cases inside with
  | @ended flow n ended actual fits signals left =>
      have last : Run.close outer (flow.signal n) = .ok () (flow.signal (n.closedTo outer)) := by
        cases flow <;> rfl
      refine .ended (n := n.closedTo outer) ?_ ?_ (fits.closedTo outer) ⟨signals.1, signals.2⟩ left
      · rw [Run.bind_of_ok ended]
        rfl
      · rw [Run.bind_of_ok actual, last]
  | stopped ended actual => exact .stopped (Run.bind_of_error ended) (Run.bind_of_error actual)

/-- A body without a break of its own, run with a receiver. -/
theorem receiving {x : Run Unit} {y : Run Flow} {receiver : Option Value}
    (inside : Realizes False x y { m with receiver := receiver.or m.receiver }) :
    (∃ flow n, Run.withReceiver receiver x m = .ok () (flow.signal n) ∧
      Run.withReceiver receiver y m = .ok flow n ∧ SameSignals m n ∧ flow ≠ .left) ∨
    ∃ e n, Run.withReceiver receiver x m = .error e n ∧
      Run.withReceiver receiver y m = .error e n := by
  cases inside with
  | @ended flow n ended actual fits signals left =>
      refine .inl ⟨flow, { n with receiver := m.receiver }, ?_, ?_,
        ⟨signals.breaks, signals.returns⟩, left⟩
      · simp only [Run.withReceiver, actual]
        cases flow <;> rfl
      · simp only [Run.withReceiver, ended]
  | @stopped e n ended actual =>
      refine .inr ⟨e, { n with receiver := m.receiver }, ?_, ?_⟩
      · simp only [Run.withReceiver, actual]
      · simp only [Run.withReceiver, ended]

end Realizes

theorem realizes_block {c : Calls} {exec : Stmt → Run Flow} {body : Block}
    (realizes : ∀ st ∈ body, ∀ m : Machine, m.Fits .breakClosed →
      Realizes leaves (c.exec st) (exec st) m)
    (fits : m.Fits .breakClosed) :
    Realizes leaves (Eval.block c body) (Flow.block exec body) m := by
  induction body generalizing m with
  | nil => exact .pure fits
  | cons st rest ih =>
      obtain ⟨first, others⟩ := List.forall_mem_cons.mp realizes
      cases pending : m.pending with
      | true =>
          refine Realizes.step (.pure fits) (block_of_pending pending) ?_ (.refl m)
          simp only [Flow.block, Run.get_bind, pending, if_true]
      | false =>
          have actual : Eval.block c (st :: rest) m = (do c.exec st; Eval.block c rest) m := by
            simp only [Eval.block, Run.get_bind, pending, Bool.false_eq_true, if_false]
          have structured : Flow.block exec (st :: rest) m =
              (do let flow ← exec st; flow.followedBy (Flow.block exec rest)) m := by
            simp only [Flow.block, Run.get_bind, pending, Bool.false_eq_true, if_false]
          refine Realizes.step ?_ actual structured (.refl m)
          cases first m fits with
          | stopped flow actual =>
              exact .stopped (Run.bind_of_error flow) (Run.bind_of_error actual)
          | @ended flow n ended actual fits signals left =>
              -- a signal of the first statement keeps the others from being executed
              cases flow with
              | next =>
                  exact (ih others fits).step (Run.bind_of_ok actual) (Run.bind_of_ok ended) signals
              | left =>
                  refine .ended (Run.bind_of_ok ended) ?_ fits signals left
                  rw [Run.bind_of_ok actual, block_of_pending (Flow.pending_signal .left (by simp) n)]
              | gave v =>
                  refine .ended (Run.bind_of_ok ended) ?_ fits signals left
                  rw [Run.bind_of_ok actual,
                    block_of_pending (Flow.pending_signal (.gave v) (by simp) n)]

/-- A loop takes a break of its round off the record; a value stays on it. -/
theorem roundEnds_signal {n : Machine} (signals : SameSignals m n) (flow : Flow) :
    Eval.roundEnds ⟨m.breaks, m.returns.length⟩ (flow.signal n) =
      match flow with
      | .next => .ok false n
      | .left => .ok true n
      | .gave v => .ok true ((Flow.gave v).signal n) := by
  have breaks := signals.breaks
  have returns := signals.returns
  cases flow with
  | next =>
      simp only [Eval.roundEnds, Run.get_bind, Flow.signal, breaks, returns, Nat.lt_irrefl,
        if_false, decide_false]
      rfl
  | left =>
      simp only [Eval.roundEnds, Run.get_bind, Flow.signal, breaks, Nat.lt_succ_self, if_true]
      rw [Nat.add_sub_cancel, ← breaks]
      rfl
  | gave v =>
      simp only [Eval.roundEnds, Run.get_bind, Flow.signal, breaks, returns, Nat.lt_irrefl,
        if_false, List.length_cons, Nat.lt_succ_self, decide_true]
      rfl

/-- A round of a loop, then the others unless it ends the loop. -/
theorem realizes_round {body x : Run Unit} {body' y : Run Flow} {d : Eval.Depth}
    (depth : d = ⟨m.breaks, m.returns.length⟩) (round : Realizes True body body' m)
    (others : ∀ n : Machine, n.Fits .breakClosed → SameSignals m n → Realizes False x y n) :
    Realizes False (do body; if ← Eval.roundEnds d then pure () else x) (Flow.round body' y) m := by
  subst depth
  cases round with
  | stopped flow actual => exact .stopped (Run.bind_of_error flow) (Run.bind_of_error actual)
  | @ended flow n ended actual fits signals _ =>
      have ends := roundEnds_signal signals flow
      cases flow with
      | next =>
          refine (others n fits signals).step ?_ (Run.bind_of_ok ended) signals
          rw [Run.bind_of_ok actual, Run.bind_of_ok ends]
          rfl
      | left =>
          refine .ended (Run.bind_of_ok ended) ?_ fits signals nofun
          rw [Run.bind_of_ok actual, Run.bind_of_ok ends]
          rfl
      | gave v =>
          refine .ended (Run.bind_of_ok ended) ?_ fits signals nofun
          rw [Run.bind_of_ok actual, Run.bind_of_ok ends]
          rfl

theorem realizes_loopRegion {rounds : Eval.Depth → Run Unit} {y : Run Flow}
    (inside : Realizes False (rounds ⟨m.breaks, m.returns.length⟩) y m) :
    Realizes False (Eval.loopRegion rounds) (Flow.region y) m :=
  (inside.close m.bindings.names).step rfl rfl (.refl m)

end Rules

/-! ## Loops -/

section Loops

variable {c : Calls} {body : Block} {inner : Run Flow} {m : Machine}
  (round : ∀ m : Machine, m.Fits .breakClosed → Realizes True (Eval.block c body) inner m)
include round

theorem realizes_rangeRounds {d : Eval.Depth} (n : Text) (count : Nat) (i : Int)
    (depth : d = ⟨m.breaks, m.returns.length⟩) (fits : m.Fits .breakClosed) :
    Realizes False (Eval.rangeRounds c n body d count i) (Flow.rangeRounds n inner count i) m := by
  induction count generalizing m i with
  | zero => exact .pure fits
  | succ count ih =>
      have scalar : (Value.number (Binary64.ofInt i)).Fits .breakClosed m.store := trivial
      have bound := fits.withBinding n scalar
      have rounds := realizes_round
        (m := { m with bindings := m.bindings.set n (.number (Binary64.ofInt i)) }) depth
        (round _ bound) fun k fits signals =>
          ih (i + 1) (by rw [depth, signals.breaks, signals.returns]) fits
      exact rounds.step rfl rfl ⟨rfl, rfl⟩

theorem realizes_eachRounds {d : Eval.Depth} (n : Text) (ref : Nat) (keys : List Scalar)
    (depth : d = ⟨m.breaks, m.returns.length⟩) (fits : m.Fits .breakClosed) :
    Realizes False (Eval.eachRounds c n ref body d keys) (Flow.eachRounds n ref inner keys) m := by
  induction keys generalizing m with
  | nil => exact .pure fits
  | cons k rest ih =>
      have value : (((m.store.get ref).get? k).getD .null).Fits .breakClosed m.store := by
        cases found : (m.store.get ref).get? k with
        | none => trivial
        | some v =>
            obtain ⟨key, member, -⟩ := OrderedMap.exists_mem_entries _ found
            exact (fits.store ref).value member
      have bound := fits.boundToEntry n k value
      have rounds := realizes_round
        (m := m.boundToEntry n k (((m.store.get ref).get? k).getD .null)) depth
        (round _ bound) fun k fits signals =>
          ih (by rw [depth, signals.breaks, signals.returns]; rfl) fits
      exact rounds.step rfl rfl ⟨rfl, rfl⟩

variable (eval : quiet.EvalFollows c c)
include eval

theorem realizes_whileRounds {d : Eval.Depth} {test : Node} (closed : Grammar.breakClosed.expr test)
    (bound : Nat) (depth : d = ⟨m.breaks, m.returns.length⟩) (fits : m.Fits .breakClosed) :
    Realizes False (Eval.whileRounds c test body d bound) (Flow.whileRounds c test inner bound)
      m := by
  induction bound generalizing m with
  | zero => exact .stopped rfl rfl
  | succ bound ih =>
      refine .bind (Discipline.follows_test quiet_laws eval fits closed)
        fun holds k fits signals _ => ?_
      cases holds with
      | true =>
          refine realizes_round (by rw [depth, signals.breaks, signals.returns]) (round k fits)
            fun n fits signals' => ih ?_ fits
          have signals := signals.trans signals'
          rw [depth, signals.breaks, signals.returns]
      | false => exact .pure fits

omit eval in
/-- The loop between two numbers. -/
theorem realizes_between (n : Text) (x y : Float) (fits : m.Fits .breakClosed) :
    Realizes False
      (if x >= y then pure ()
        else match Binary64.toInt64? x, Binary64.toInt64? y with
          | some low, some high =>
            Eval.loopRegion fun d => Eval.rangeRounds c n body d (high - low + 1).toNat low
          | _, _ => Run.fail (.rangeBounds x y))
      (if x >= y then pure .next
        else match Binary64.toInt64? x, Binary64.toInt64? y with
          | some low, some high => Flow.region (Flow.rangeRounds n inner (high - low + 1).toNat low)
          | _, _ => Run.fail (.rangeBounds x y)) m := by
  by_cases empty : x >= y
  · rw [if_pos empty, if_pos empty]
    exact .pure fits
  · rw [if_neg empty, if_neg empty]
    cases Binary64.toInt64? x with
    | none => exact .fail _
    | some low =>
        cases Binary64.toInt64? y with
        | none => exact .fail _
        | some high => exact realizes_loopRegion (realizes_rangeRounds round n _ low rfl fits)

theorem realizes_range {n : Text} {first last : Node} (fits : m.Fits .breakClosed)
    (firstClosed : Grammar.breakClosed.expr first) (lastClosed : Grammar.breakClosed.expr last) :
    Realizes False (Eval.range c n first last body) (Flow.range c n first last inner) m := by
  refine .bind (eval first m firstClosed fits) fun a k fits _ _ => ?_
  refine .bind (eval last k lastClosed fits) fun b k fits _ _ => ?_
  cases a with
  | scalar a =>
      cases a with
      | number x =>
          cases b with
          | scalar b =>
              cases b with
              | number y => exact realizes_between round n x y fits
              | _ => exact .fail _
          | _ => exact .fail _
      | _ => exact .fail _
  | _ => exact .fail _

theorem realizes_each {n : Text} {collection : Node} (fits : m.Fits .breakClosed)
    (closed : Grammar.breakClosed.expr collection) :
    Realizes False (Eval.each c n collection body) (Flow.each c n collection inner) m := by
  refine .bind (eval collection m closed fits) fun v k fits _ _ => ?_
  cases v with
  | container shape ref =>
      have rounds : Realizes False
          (Eval.loopRegion fun d => Eval.eachRounds c n ref body d (k.store.get ref).keys)
          (Flow.region (Flow.eachRounds n ref inner (k.store.get ref).keys)) k :=
        realizes_loopRegion (realizes_eachRounds round n ref _ rfl fits)
      exact rounds.step rfl rfl (.refl k)
  | _ => exact .fail _

end Loops

/-! ## Branches -/

section Branches

variable {leaves : Prop} {c : Calls} {inner : Block → Run Flow} {m : Machine}
  (eval : quiet.EvalFollows c c)
include eval

theorem realizes_elifs {otherwise : Option Block} {elifs : List (Node × Block)}
    (closed : ∀ elif ∈ elifs, Grammar.breakClosed.expr elif.1)
    (bodies : ∀ body ∈ elifs.map Prod.snd ++ otherwise.toList, ∀ m : Machine,
      m.Fits .breakClosed → Realizes leaves (Eval.block c body) (inner body) m)
    (fits : m.Fits .breakClosed) :
    Realizes leaves (Eval.elifs c otherwise elifs) (Flow.elifs c inner otherwise elifs) m := by
  induction elifs generalizing m with
  | nil =>
      cases otherwise with
      | none => exact .pure fits
      | some body => exact bodies body (by simp) m fits
  | cons elif rest ih =>
      obtain ⟨test, others⟩ := List.forall_mem_cons.mp closed
      obtain ⟨body, bodies⟩ := List.forall_mem_cons.mp bodies
      refine .bind (Discipline.follows_test quiet_laws eval fits test) fun holds k fits _ _ => ?_
      cases holds with
      | true => exact body k fits
      | false => exact ih others bodies fits

theorem realizes_branch {test : Node} {body : Block} {elifs : List (Node × Block)}
    {otherwise : Option Block}
    (closed : ∀ e ∈ (Node.branch test body elifs otherwise).exprs, Grammar.breakClosed.expr e)
    (bodies : ∀ part ∈ (Node.branch test body elifs otherwise).blocks, ∀ m : Machine,
      m.Fits .breakClosed → Realizes leaves (Eval.block c part) (inner part) m)
    (fits : m.Fits .breakClosed) :
    Realizes leaves (Eval.branch c test body elifs otherwise)
      (Flow.branch c inner test body elifs otherwise) m := by
  refine .bind (Discipline.follows_test quiet_laws eval fits (closed _ List.mem_cons_self))
    fun holds k fits _ _ => ?_
  cases holds with
  | true =>
      have inside := bodies body List.mem_cons_self k fits
      exact (inside.close k.bindings.names).step rfl rfl (.refl k)
  | false =>
      have inside := realizes_elifs eval
        (fun elif member => closed _ (List.mem_cons_of_mem _ (List.mem_map_of_mem member)))
        (fun part member => bodies part (List.mem_cons_of_mem _ member)) fits
      exact (inside.close k.bindings.names).step rfl rfl (.refl k)

end Branches

/-! ## Calls and imports -/

section Frames

variable {m n : Machine}

theorem bindParams_signals {pairs : List (Text × Value)} {seen : List Text}
    (ran : Eval.bindParams seen pairs m = .ok () n) :
    SameSignals m n := by
  induction pairs generalizing seen m with
  | nil =>
      cases ran
      exact ⟨rfl, rfl⟩
  | cons pair rest ih =>
      obtain ⟨name, v⟩ := pair
      simp only [Eval.bindParams] at ran
      split at ran
      · cases ran
      · exact (SameSignals.boundTo m name v).trans (ih ran)

theorem merge_signals {bound : List (Text × Value)} (ran : Eval.merge bound m = .ok () n) :
    SameSignals m n := by
  induction bound generalizing m with
  | nil =>
      cases ran
      exact ⟨rfl, rfl⟩
  | cons entry rest ih =>
      obtain ⟨name, v⟩ := entry
      obtain ⟨_, _, got, ran⟩ := Run.bind_eq_ok.mp ran
      cases got
      dsimp only at ran
      split at ran
      · exact (SameSignals.boundTo m name v).trans (ih ran)
      · exact ih ran

theorem inNewFrame_signals {x : Run Unit} {bound : Bindings}
    (ran : Eval.inNewFrame x m = .ok bound n) : SameSignals m n := by
  unfold Eval.inNewFrame at ran
  dsimp only at ran
  split at ran
  · cases ran
    exact ⟨rfl, rfl⟩
  · cases ran

theorem load_signals {source : Text} {body : Block} (ran : Eval.load source m = .ok body n) :
    SameSignals m n := by
  obtain ⟨_, _, got, ran⟩ := Run.bind_eq_ok.mp ran
  cases got
  cases parsed : parseSource m.site source with
  | error e =>
      rw [parsed] at ran
      cases ran
  | ok program =>
      rw [parsed] at ran
      cases ran
      exact ⟨rfl, rfl⟩

/-- An imported program has a record of its own. -/
theorem importFile_signals {s : Surroundings} {c : Calls} (eval : quiet.EvalFollows c c)
    {inside : Surroundings → Calls} {path : Node} (fits : m.Fits .breakClosed)
    (closed : Grammar.breakClosed.expr path) (ran : Eval.importFile s c inside path m = .ok () n) :
    SameSignals m n := by
  obtain ⟨v, k, evaluated, ran⟩ := Run.bind_eq_ok.mp ran
  have signals := quiet_signals (eval path m closed fits) evaluated
  split at ran
  · rename_i t
    dsimp only at ran
    cases refused : Eval.refusal? s (Path.clean t) with
    | some cause =>
        rw [refused] at ran
        cases ran
    | none =>
        cases file : s.files (Path.clean t) with
        | none =>
            rw [refused, file] at ran
            cases ran
        | some source =>
            rw [refused, file] at ran
            obtain ⟨body, k₁, loaded, ran⟩ := Run.bind_eq_ok.mp ran
            obtain ⟨bound, k₂, imported, ran⟩ := Run.bind_eq_ok.mp ran
            exact signals.trans ((load_signals loaded).trans
              ((inNewFrame_signals imported).trans (merge_signals ran)))
  · cases ran

end Frames

/-- A call takes the signal for the way in which its body ended. -/
theorem takeReturn_signal {m n : Machine} (signals : SameSignals m n) {flow : Flow}
    (inside : flow ≠ .left) :
    Eval.takeReturn m.returns.length (flow.signal n) = .ok flow.result n := by
  cases flow with
  | next => exact takeReturn_none (Nat.le_of_eq (congrArg List.length signals.returns))
  | left => exact absurd rfl inside
  | gave v =>
      have pending : ((Flow.gave v).signal n).returns = v :: n.returns := rfl
      exact takeReturn_some pending (by rw [pending, signals.returns]; exact Nat.lt_succ_self _)

/-- Statements are carried out as structured ones. -/
def ExecRealizes (c : Calls) (exec : Stmt → Run Flow) : Prop :=
  ∀ st m, Grammar.breakClosed.stmt st → m.Fits .breakClosed →
    Realizes st.node.Leaves (c.exec st) (exec st) m

section Calls

variable {c : Calls} {exec : Stmt → Run Flow} (realizes : ExecRealizes c exec)
include realizes

/-- A block without a break of its own leaves no loop. -/
theorem realizes_tame {body : Block} (closed : body.BreakClosed)
    (stmts : ∀ st ∈ body, Grammar.breakClosed.stmt st) {m : Machine} (fits : m.Fits .breakClosed) :
    Realizes False (Eval.block c body) (Flow.block exec body) m :=
  realizes_block (fun st member m fits =>
    (realizes st m (stmts st member) fits).mono (closed st member)) fits

/-- **A call takes the value that its body was given**, and leaves the record of
signals as it found it. -/
theorem invoke_eq {site : Nat} {params : List Text} {body : Block} {args : List Value}
    {receiver : Option Value} {m : Machine}
    (function : Grammar.breakClosed.expr (.function site params body))
    (values : ∀ v ∈ args, v.Fits .breakClosed m.store)
    (receivers : ∀ v ∈ receiver, v.Fits .breakClosed m.store) (fits : m.Fits .breakClosed) :
    Eval.invoke c params body args receiver m = Flow.invoke exec params body args receiver m ∧
    ∀ v n, Eval.invoke c params body args receiver m = .ok v n → SameSignals m n := by
  have pairs : ∀ pair ∈ params.zip args, pair.2.Fits .breakClosed m.store :=
    fun pair member => values _ (List.of_mem_zip member).2
  have actual : Eval.invoke c params body args receiver m =
      (do Eval.bindParams [] (params.zip args)
          Run.withReceiver receiver (Eval.block c body)
          let v ← Run.copy (← Eval.takeReturn m.returns.length)
          Run.close m.bindings.names
          return v : Run Value) m := rfl
  have structured : Flow.invoke exec params body args receiver m =
      (do Eval.bindParams [] (params.zip args)
          let flow ← Run.withReceiver receiver (Flow.block exec body)
          let v ← Run.copy flow.result
          Run.close m.bindings.names
          return v : Run Value) m := rfl
  rw [actual, structured]
  cases bound : Eval.bindParams [] (params.zip args) m with
  | error e k =>
      rw [Run.bind_of_error bound, Run.bind_of_error bound]
      exact ⟨rfl, nofun⟩
  | ok _ k =>
      rw [Run.bind_of_ok bound, Run.bind_of_ok bound]
      have leads := ((Discipline.follows_bindParams holding_breakClosed.toBlockLaws fits
        (fun _ _ => trivial) pairs).of_ran bound).1
      have entered := holding_breakClosed.entered leads.1
        fun v member => (receivers v member).mono leads.2
      have inside := realizes_tame realizes (function _ _ _ .self)
        (fun st member => Grammar.breakClosed_laws.body function member) entered
      rcases inside.receiving with ⟨flow, n, ran, ran', signals, left⟩ | ⟨e, n, stops, stops'⟩
      · have signals := (bindParams_signals bound).trans signals
        rw [Run.bind_of_ok ran, Run.bind_of_ok ran',
          Run.bind_of_ok (takeReturn_signal signals left)]
        refine ⟨rfl, fun v l done => ?_⟩
        cases done
        exact ⟨signals.breaks, signals.returns⟩
      · rw [Run.bind_of_error stops, Run.bind_of_error stops']
        exact ⟨rfl, nofun⟩

theorem quiet_invoke (hold : (holding .breakClosed).ExecFollows c c) : quiet.InvokeFollows c c :=
  fun site params body args receiver m function values receivers fits =>
    quiet_follows
      (Discipline.follows_invoke holding_breakClosed hold site params body args receiver m function
        values receivers fits)
      (invoke_eq realizes function values receivers fits).2

variable (eval : quiet.EvalFollows c c)
include eval

theorem call_eq {callee : Node} {args : List Node} {m : Machine}
    (closed : ∀ e ∈ callee :: args, Grammar.breakClosed.expr e) (fits : m.Fits .breakClosed) :
    Eval.call c callee args m = Flow.call c exec callee args m := by
  obtain ⟨callee_closed, args_closed⟩ := List.forall_mem_cons.mp closed
  refine Run.bind_congr fun r k resolved => ?_
  obtain ⟨leads, value, receivers⟩ :=
    (Discipline.follows_resolve quiet_laws eval fits callee_closed).of_ran resolved
  obtain ⟨f, receiver⟩ := r
  cases f with
  | function site params body =>
      dsimp only
      split
      · refine Run.bind_congr fun vs n evaluated => ?_
        have reached :=
          (Discipline.follows_all quiet_laws eval leads.1 args_closed).of_ran evaluated
        exact (invoke_eq realizes value reached.2
          (fun v member => reached.1.value quiet_laws (receivers v member)) reached.1.1).1
      · rfl
  | _ => rfl

end Calls

/-! ## All forms -/

section Forms

variable {fuel : Nat} {s : Surroundings} (files : s.Tame)
  (realizes : ExecRealizes (calls fuel s) (Flow.exec fuel s))
  (eval : quiet.EvalFollows (calls fuel s) (calls fuel s))
include files

theorem holds_exec : (holding .breakClosed).ExecFollows (calls fuel s) (calls fuel s) :=
  fun _ _ closed fits ready =>
    Discipline.exec_follows holding_breakClosed files.admits fits ready closed

include realizes eval

theorem realizes_statement : ExecRealizes (calls (fuel + 1) s) (Flow.exec (fuel + 1) s) := by
  intro st m closed fits
  obtain ⟨line, node⟩ := st
  have parts : ∀ e ∈ node.exprs, Grammar.breakClosed.expr e :=
    fun e member => Grammar.breakClosed_laws.stmtParts closed member
  have inner : ∀ body ∈ node.blocks, ∀ st ∈ body, ∀ m : Machine, m.Fits .breakClosed →
      Realizes st.node.Leaves ((calls fuel s).exec st) (Flow.exec fuel s st) m :=
    fun body inside st member m =>
      realizes st m (Grammar.breakClosed_laws.stmtBlocks closed inside member)
  have rounds : ∀ body ∈ node.blocks, ∀ m : Machine, m.Fits .breakClosed →
      Realizes True (Eval.block (calls fuel s) body) (Flow.block (Flow.exec fuel s) body) m :=
    fun body inside m => realizes_block fun st member m fits =>
      (inner body inside st member m fits).mono fun _ => trivial
  have kept : ∀ n, (calls (fuel + 1) s).exec ⟨line, node⟩ m = .ok () n → n.Fits .breakClosed :=
    fun n ran => ((holds_exec files _ m closed fits trivial).of_ran ran).1.1
  cases node with
  | give value =>
      exact .bind (eval value m (parts value List.mem_cons_self) fits)
        fun v k fits _ _ => .ended rfl rfl fits (.refl k) nofun
  | leave => exact .ended rfl rfl fits (.refl m) fun _ => .leave
  | call callee args =>
      have called := Discipline.follows_call quiet_laws eval
        (quiet_invoke realizes (holds_exec files)) fits (parts callee List.mem_cons_self)
        fun e member => parts e (List.mem_cons_of_mem _ member)
      have usual : Realizes (Node.call callee args).Leaves
          (do let _ ← Eval.call (calls fuel s) callee args)
          (do let _ ← Eval.call (calls fuel s) callee args; return .next) m :=
        .bind called fun _ k fits _ _ => .pure fits
      exact usual.step rfl (Run.bind_of_eq (call_eq realizes eval parts fits).symm) (.refl m)
  | branch test body elifs otherwise =>
      refine realizes_branch eval parts (fun part inside m fits => ?_) fits
      exact realizes_block (fun st member m fits =>
        (inner part inside st member m fits).mono (.branch inside member)) fits
  | loop test body =>
      refine Realizes.mono ?_ False.elim
      exact realizes_loopRegion (realizes_whileRounds (rounds body List.mem_cons_self) eval
        (parts test List.mem_cons_self) fuel rfl fits)
  | range n first last body =>
      refine Realizes.mono ?_ False.elim
      exact realizes_range (rounds body List.mem_cons_self) eval fits
        (parts first (by simp [Node.exprs])) (parts last (by simp [Node.exprs]))
  | each n collection body =>
      refine Realizes.mono ?_ False.elim
      exact realizes_each (rounds body List.mem_cons_self) eval fits
        (parts collection List.mem_cons_self)
  | newLine =>
      refine .simple fun n ran => ⟨kept n ran, ?_⟩
      cases ran
      exact ⟨rfl, rfl⟩
  | bind name value =>
      refine .simple fun n ran => ⟨kept n ran, ?_⟩
      obtain ⟨v, k, evaluated, ran⟩ := Run.bind_eq_ok.mp ran
      have signals := quiet_signals (eval value m (parts value List.mem_cons_self) fits) evaluated
      cases ran
      exact ⟨signals.breaks, signals.returns⟩
  | assign base path value =>
      have assigned := Discipline.follows_assign quiet_laws eval ⟨_, _, _, _, closed⟩ fits
        (parts base List.mem_cons_self)
        (fun e member => parts e (List.mem_cons_of_mem _ (List.mem_cons_of_mem _ member)))
        (parts value (by simp [Node.exprs])) (.inr fun _ => trivial)
      exact .simple fun n ran => ⟨kept n ran, quiet_signals assigned ran⟩
  | native operation =>
      refine .simple fun n ran => ⟨kept n ran, ?_⟩
      obtain ⟨v, k, done, ran⟩ := Run.bind_eq_ok.mp ran
      cases ran
      exact quiet_signals
        (Discipline.follows_native quiet_laws fits (.inr ⟨_, _, closed⟩) s operation) done
  | load path =>
      exact .simple fun n ran => ⟨kept n ran,
        importFile_signals eval fits (parts path List.mem_cons_self) ran⟩
  | _ => exact .simple fun n ran => by cases ran

end Forms

/-! ## Every amount of fuel -/

/-- **The record of signals does the work of structured control flow.** The
induction is on the fuel. Expressions need it as well, since they call functions. -/
theorem signals_calls {s : Surroundings} (files : s.Tame) (fuel : Nat) :
    quiet.EvalFollows (calls fuel s) (calls fuel s) ∧
    ExecRealizes (calls fuel s) (Flow.exec fuel s) := by
  induction fuel with
  | zero =>
      exact ⟨fun _ _ _ fits => .throw quiet_laws fits trivial, fun _ _ _ _ => .stopped rfl rfl⟩
  | succ fuel ih =>
      obtain ⟨eval, exec⟩ := ih
      have invoke := quiet_invoke exec (holds_exec files)
      exact ⟨fun _ _ closed fits =>
        Discipline.follows_expression quiet_laws eval (fun _ => invoke) s fits closed,
        realizes_statement files exec eval⟩

theorem Meets.fits_breakClosed {fuel : Nat} {s : Surroundings} {body : Block} {input : Text}
    {m : Machine} (tame : body.Tame) (files : s.Tame)
    (meets : Meets fuel s body (Machine.start input) m) : m.Fits .breakClosed :=
  meets.state holding_breakClosed files.admits tame.2 (.start Grammar.breakClosed_laws input)

/-- **Breaks and returns reach exactly their consumer.** Let every break of a
program, of its functions and of the files it may import be in a loop of the same
body. Then the program runs as with structured control flow, and if it completes, no
break is on record. In every state that the run meets,

* a completed expression and a completed call leave the record of signals as it was,
  and a call gives what the structured call gives: the value of the return that ended
  its body, or null;
* a statement does what the structured statement does and adds the signal for its way
  to end. It leaves a loop only if it holds a break outside of its own loops;
* a completed loop leaves the breaks as they were. -/
theorem signals_reach_consumer {body : Block} {s : Surroundings} (tame : body.Tame)
    (files : s.Tame) (fuel : Nat) (input : Text) :
    (Block.run fuel s body (.start input) = Flow.signalled (Flow.run fuel s body) (.start input) ∧
      ∀ n, Block.run fuel s body (.start input) = .ok () n → n.breaks = 0) ∧
    ∀ m, Meets fuel s body (.start input) m → ∀ (fuel : Nat) (s : Surroundings), s.Tame →
      (∀ e v n, Grammar.breakClosed.expr e →
        (calls fuel s).eval e m = .ok v n → SameSignals m n) ∧
      (∀ callee args, Grammar.breakClosed.expr (.call callee args) →
        Eval.call (calls fuel s) callee args m =
          Flow.call (calls fuel s) (Flow.exec fuel s) callee args m ∧
        ∀ v n, Eval.call (calls fuel s) callee args m = .ok v n → SameSignals m n) ∧
      ∀ st, Grammar.breakClosed.stmt st →
        (calls fuel s).exec st m = Flow.signalled (Flow.exec fuel s st) m ∧
        (∀ flow n, Flow.exec fuel s st m = .ok flow n →
          SameSignals m n ∧ (flow = .left → st.node.Leaves)) ∧
        (st.node.IsLoop → ∀ n, (calls fuel s).exec st m = .ok () n → n.breaks = m.breaks) := by
  constructor
  · have fits := (Meets.first fuel s body (.start input)).fits_breakClosed tame files
    have run := realizes_tame (signals_calls files fuel).2 tame.1 tame.2 fits
    exact ⟨run.eq_signalled, fun n ran => run.breaks_eq id ran⟩
  · intro m meets fuel s files
    have fits := meets.fits_breakClosed tame ‹_›
    obtain ⟨eval, exec⟩ := signals_calls files fuel
    refine ⟨fun e v n closed ran => quiet_signals (eval e m closed fits) ran,
      fun callee args closed => ?_, fun st closed => ?_⟩
    · have parts : ∀ e ∈ callee :: args, Grammar.breakClosed.expr e :=
        fun e member => Grammar.breakClosed_laws.parts closed member
      obtain ⟨callee_closed, args_closed⟩ := List.forall_mem_cons.mp parts
      have called := Discipline.follows_call quiet_laws eval (quiet_invoke exec (holds_exec files))
        fits callee_closed args_closed
      exact ⟨call_eq exec eval parts fits, fun v n ran => quiet_signals called ran⟩
    · have realizes := exec st m closed fits
      exact ⟨realizes.eq_signalled, fun flow n ran => realizes.of_ran ran,
        fun loop n ran => realizes.breaks_eq loop.not_leaves ran⟩

/-- A function that returns its argument from inside a loop, after an inner loop
was left by a break. -/
theorem signals_reach_consumer_nested_loops :
    let inner : Stmt := ⟨1, .loop (.literal (.boolean true)) [⟨1, .leave⟩]⟩
    let outer : Stmt := ⟨1, .loop (.literal (.boolean true)) [inner, ⟨1, .give (.name "x")⟩]⟩
    let body : Block := [⟨1, .bind "f" (.function 7 ["x"] [outer])⟩]
    let m := (Block.run 9 {} body).last (Machine.start [])
    body.Tame ∧ ∃ n,
      Eval.call (calls 9 {}) (.name "f") [.literal (.boolean true)] m =
        .ok (.scalar (.boolean true)) n ∧ SameSignals m n := by
  intro inner outer body m
  have literal : ∀ x, Grammar.breakClosed.expr (.literal x) := fun x => .of_parts nofun nofun nofun
  have name : ∀ n, Grammar.breakClosed.expr (.name n) := fun n => .of_parts nofun nofun nofun
  have left : Grammar.breakClosed.stmt ⟨1, .leave⟩ := .of_parts nofun nofun nofun
  have given : Grammar.breakClosed.stmt ⟨1, .give (.name "x")⟩ :=
    .of_parts (List.forall_mem_singleton.mpr (name "x")) nofun nofun
  have inside : Grammar.breakClosed.stmt inner :=
    .of_parts (List.forall_mem_singleton.mpr (literal _))
      (List.forall_mem_singleton.mpr (List.forall_mem_singleton.mpr left)) nofun
  have around : Grammar.breakClosed.stmt outer :=
    .of_parts (List.forall_mem_singleton.mpr (literal _)) (List.forall_mem_singleton.mpr
      (List.forall_mem_cons.mpr ⟨inside, List.forall_mem_singleton.mpr given⟩)) nofun
  have function : Grammar.breakClosed.expr (.function 7 ["x"] [outer]) := by
    refine .of_parts nofun nofun fun site params body same => ?_
    cases same
    exact ⟨List.forall_mem_singleton.mpr nofun, List.forall_mem_singleton.mpr around⟩
  have tame : body.Tame := ⟨List.forall_mem_singleton.mpr nofun, List.forall_mem_singleton.mpr
    (.of_parts (List.forall_mem_singleton.mpr function) nofun nofun)⟩
  have closed : Grammar.breakClosed.expr (.call (.name "f") [.literal (.boolean true)]) :=
    .of_parts (List.forall_mem_cons.mpr ⟨name _, List.forall_mem_singleton.mpr (literal _)⟩)
      nofun nofun
  have law := (signals_reach_consumer tame (s := {}) nofun 9 []).2 m (.last 9 {} body _) 9 {} nofun
  exact ⟨tame, _, rfl, (law.2.1 _ _ closed).2 _ _ rfl⟩

end EplLang
