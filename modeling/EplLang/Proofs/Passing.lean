import EplLang.Proofs.Apart

/-!
# Passing arguments

A call evaluates its arguments from left to right. Only when all of them have values are the
parameters bound, to copies (`Eval.Entry`). But reading a name gives the container that is bound
to it, so a parameter gets what this container holds after the last argument, and not what it
held when the name was read.

**When this makes a difference** (`view_of_later`). Apart from what names lend, an expression
gives a scalar, a function, or a container that nothing else refers to: operators give scalars,
index paths and calls give copies, and a container literal is new and holds what its items give
(`eval_secludes`). Such a container stays as it is while other arguments are evaluated. And an
expression changes containers only if it calls a function (`all_extends`).
-/

set_option autoImplicit false

namespace EplLang

/-! ## Calls that get to a body -/

namespace Eval

/-- A call from the start of the body on. It had evaluated its arguments in the state `base`. -/
def finish (c : Calls) (body : Block) (receiver : Option Value) (base : Machine) : Run Value := do
  Run.withReceiver receiver (block c body)
  let v ← Run.copy (← takeReturn base.returns.length)
  Run.close base.bindings.names
  return v

theorem invoke_eq (c : Calls) (params : List Text) (body : Block) (values : List Value)
    (receiver : Option Value) (m : Machine) :
    invoke c params body values receiver m =
      (bindParams [] (params.zip values) >>= fun _ => finish c body receiver m) m := rfl

/-- A call that gets to the body of a function: the callee is a function, every argument has a
value, and the parameters are bound. -/
structure Entry (c : Calls) (callee : Node) (args : List Node) (m : Machine) where
  site : Nat
  params : List Text
  body : Block
  receiver : Option Value
  values : List Value
  /-- The state in which the first argument is evaluated. -/
  asked : Machine
  /-- The state after the last argument. -/
  ready : Machine
  /-- The state in which the body starts. -/
  start : Machine
  resolved : resolve c callee m = .ok (.function site params body, receiver) asked
  count : params.length = args.length
  evaluated : all c args asked = .ok values ready
  bound : bindParams [] (params.zip values) ready = .ok () start

namespace Entry

variable {c : Calls} {callee : Node} {args : List Node} {m : Machine}

theorem call_eq (entry : Entry c callee args m) :
    call c callee args m = finish c entry.body entry.receiver entry.ready entry.start := by
  rw [call, Run.bind_of_ok entry.resolved]
  dsimp only
  rw [if_pos entry.count, Run.bind_of_ok entry.evaluated, invoke_eq, Run.bind_of_ok entry.bound]

/-- A call that completes has got to a body. -/
theorem exists_of_call {v : Value} {n : Machine} (ran : call c callee args m = .ok v n) :
    Nonempty (Entry c callee args m) := by
  obtain ⟨⟨f, receiver⟩, asked, resolved, ran⟩ := Run.bind_eq_ok.mp ran
  cases f with
  | function site params body =>
      dsimp only at ran
      split at ran
      next count =>
        obtain ⟨values, ready, evaluated, ran⟩ := Run.bind_eq_ok.mp ran
        rw [invoke_eq] at ran
        obtain ⟨_, start, bound, _⟩ := Run.bind_eq_ok.mp ran
        exact ⟨⟨site, params, body, receiver, values, asked, ready, start, resolved, count,
          evaluated, bound⟩⟩
      next => cases ran
  | scalar x => cases ran
  | container shape ref => cases ran

end Entry

theorem all_append {c : Calls} {before after : List Node} {m k : Machine} {vs : List Value}
    (ran : all c (before ++ after) m = .ok vs k) :
    ∃ us l ws, all c before m = .ok us l ∧ all c after l = .ok ws k ∧ vs = us ++ ws ∧
      us.length = before.length := by
  induction before generalizing m vs with
  | nil => exact ⟨[], m, vs, rfl, ran, rfl, rfl⟩
  | cons e rest ih =>
      obtain ⟨v, n, first, ran⟩ := Run.bind_eq_ok.mp ran
      obtain ⟨others, last, ran, made⟩ := Run.bind_eq_ok.mp ran
      cases made
      obtain ⟨us, l, ws, before, after, rfl, length⟩ := ih ran
      refine ⟨v :: us, l, ws, ?_, after, rfl, congrArg Nat.succ length⟩
      rw [all, Run.bind_of_ok first, Run.bind_of_ok before]
      rfl

/-- Binding parameters puts copies into the bindings, one for each of them. -/
theorem bindParams_copies {pairs : List (Text × Value)} {seen : List Text} {m n : Machine}
    (ranked : m.store.Ranked) (fits : ∀ pair ∈ pairs, pair.2.Fits .any m.store)
    (ran : bindParams seen pairs m = .ok () n) :
    m.store.Apart n.store ∧
    (∀ name ∈ seen, n.bindings.find? name = m.bindings.find? name) ∧
    ∀ pair ∈ pairs, ∃ w, n.bindings.find? pair.1 = some w ∧ w.Beyond m.store ∧
      n.store.view w = m.store.view pair.2 := by
  induction pairs generalizing seen m with
  | nil =>
      cases ran
      exact ⟨.refl _, fun _ _ => rfl, fun _ member => absurd member List.not_mem_nil⟩
  | cons pair rest ih =>
      obtain ⟨p, v⟩ := pair
      obtain ⟨first, others⟩ := List.forall_mem_cons.mp fits
      simp only [bindParams] at ran
      split at ran
      next => cases ran
      next new =>
        have copied := Store.Apart.ofCopy m.store v
        have ran : bindParams (p :: seen) rest (m.boundTo p v) = .ok () n := ran
        obtain ⟨later, kept, bound⟩ := ih (m := m.boundTo p v) (ranked.copy v)
          (fun pair member => (others pair member).mono copied.longer) ran
        refine ⟨copied.trans later, fun name member => ?_, fun pair member => ?_⟩
        · have differs : name ≠ p := by
            rintro rfl
            exact new (List.contains_iff_mem.mpr member)
          rw [kept name (List.mem_cons_of_mem _ member)]
          exact Bindings.find?_set_of_ne _ differs _
        · rcases List.mem_cons.mp member with rfl | there
          · refine ⟨(m.store.copy v).1, ?_, (Store.Apart.refl _).copy_beyond v,
              Store.view_copy later.toExtends⟩
            rw [kept p List.mem_cons_self]
            exact Bindings.find?_set _ p _
          · obtain ⟨w, found, beyond, same⟩ := bound pair there
            refine ⟨w, found, beyond.mono copied.longer, same.trans ?_⟩
            exact copied.toExtends.view_of_fits ranked (others pair there)

end Eval

/-! ## Expressions that lend nothing -/

/-- A computation that gives scalars only. -/
def Run.GivesScalar (x : Run Value) : Prop := ∀ m v n, x m = .ok v n → ∃ s, v = .scalar s

namespace Run.GivesScalar

theorem pure (s : Scalar) : GivesScalar (Pure.pure (.scalar s)) := by
  intro m v n ran
  cases ran
  exact ⟨s, rfl⟩

theorem fail (cause : Cause) : GivesScalar (Run.fail cause) := by
  intro m v n ran
  cases ran

theorem bind {α : Type} {x : Run α} {f : α → Run Value} (next : ∀ a, GivesScalar (f a)) :
    GivesScalar (x >>= f) := by
  intro m v n ran
  obtain ⟨a, k, _, ran⟩ := Run.bind_eq_ok.mp ran
  exact next a k v n ran

theorem ofExcept {odd : Prop} {r : Except Cause Value} (regular : Operator.Regular odd r) :
    GivesScalar (Run.ofExcept r) := by
  cases r with
  | ok v =>
      obtain ⟨s, rfl⟩ := regular
      exact .pure s
  | error cause => exact .fail cause

end Run.GivesScalar

theorem Native.run_givesScalar (s : Surroundings) (operation : Native) :
    (operation.run s).GivesScalar := by
  cases operation with
  | log => exact .bind fun _ => .bind fun _ => .bind fun _ => .pure _
  | sleep =>
      refine .bind fun seconds => ?_
      dsimp only
      split
      · exact .bind fun _ => .pure _
      · exact .pure _
  | time => exact .pure _
  | input =>
      exact .bind fun _ => .bind fun _ => .bind fun _ => .bind fun _ => .bind fun _ => .pure _
  | random =>
      refine .bind fun a => .bind fun b => ?_
      split
      · exact .bind fun _ => .bind fun _ => .bind fun _ => .pure _
      · exact .fail _
  | toNumber => exact .bind fun v => .ofExcept (Native.numberOf_regular v)
  | toText => exact .bind fun _ => .bind fun _ => .pure _

/-- An expression whose value may be a container that is bound to a name, or may hold one. -/
inductive Node.Lends : Node → Prop where
  | name (n : Text) : Lends (.name n)
  | item {shape : Shape} {entries : List (Scalar × Option Node)} {k : Scalar} {e : Node} :
      (k, some e) ∈ entries → Lends e → Lends (.container shape ⟨entries⟩)

section Evaluation

variable {fuel : Nat} {s : Surroundings} {m n : Machine}

theorem eval_apart {e : Node} {v : Value} (state : m.Apart {})
    (ran : (calls fuel s).eval e m = .ok v n) : n.Apart {} ∧ v.Fits .any n.store := by
  obtain ⟨⟨state, _⟩, value⟩ := (Discipline.eval_follows (apart_laws {})
    (apart_admits {} s.files) state (Grammar.any_expr e)).of_ran ran
  exact ⟨state, value.1⟩

theorem all_apart {args : List Node} {vs : List Value} (state : m.Apart {})
    (ran : Eval.all (calls fuel s) args m = .ok vs n) :
    n.Apart {} ∧ ∀ v ∈ vs, v.Fits .any n.store := by
  obtain ⟨⟨state, _⟩, values⟩ := (Discipline.follows_all (apart_laws {}).toLaws
    (Discipline.evalFollows_calls (apart_laws {}) (apart_admits {} s.files)) state
    fun e _ => Grammar.any_expr e).of_ran ran
  exact ⟨state, fun v member => (values v member).1⟩

theorem Eval.Entry.apart {callee : Node} {args : List Node} (state : m.Apart {})
    (entry : Eval.Entry (calls fuel s) callee args m) :
    entry.asked.Apart {} ∧ entry.ready.Apart {} ∧
    (∀ v ∈ entry.values, v.Fits .any entry.ready.store) ∧
    ((Run.withReceiver entry.receiver (Eval.block (calls fuel s) entry.body)).last
      entry.start).Apart {} := by
  have laws := apart_laws {}
  have admits := apart_admits {} s.files
  obtain ⟨⟨asked, _⟩, _, receivers⟩ := (Discipline.follows_resolve laws.toLaws
    (Discipline.evalFollows_calls laws admits) state (Grammar.any_expr callee)).of_ran
    entry.resolved
  obtain ⟨ready, values⟩ := (Discipline.follows_all laws.toLaws
    (Discipline.evalFollows_calls laws admits) asked fun e _ => Grammar.any_expr e).of_ran
    entry.evaluated
  obtain ⟨start, _⟩ := (Discipline.follows_bindParams laws.toBlockLaws ready.1
    (fun _ _ => trivial) fun pair member => values _ (List.of_mem_zip member).2).of_ran entry.bound
  have receivers : ∀ v ∈ entry.receiver, (EplLang.apart {}).value entry.start.store v := by
    intro v member
    exact start.value laws.toLaws (ready.value laws.toLaws (receivers v member))
  refine ⟨asked, ready.1, fun v member => (values v member).1, ?_⟩
  exact ((Discipline.follows_withReceiver laws start.1 receivers fun k state =>
    Discipline.follows_block laws.toBlockLaws (Discipline.execFollows_calls laws admits) state
      fun _ _ _ _ _ _ => trivial).last_leads laws.toLaws).1

theorem index_secludes {base : Node} {path : List Node} {r : Value × Option Value}
    (state : m.Apart {}) (ran : Eval.index (calls fuel s) base path m = .ok r n) :
    ∃ kept, n.Secludes kept ∧ r.1.Among kept := by
  have laws := apart_laws {}
  have eval : (apart {}).EvalFollows (calls fuel s) (calls fuel s) :=
    Discipline.evalFollows_calls laws (apart_admits {} s.files)
  obtain ⟨⟨after, _⟩, _⟩ := (Discipline.follows_index laws.toLaws eval state
    (Grammar.any_expr base) (fun e _ => Grammar.any_expr e) (.inr fun _ => trivial)).of_ran ran
  obtain ⟨b, l, evaluated, ran⟩ := Run.bind_eq_ok.mp ran
  obtain ⟨reached, value⟩ := (eval base m (Grammar.any_expr base) state).of_ran evaluated
  split at ran
  · cases ran
  · obtain ⟨w, k, _, ran⟩ := Run.bind_eq_ok.mp ran
    split at ran
    · obtain ⟨character, k', read, ran⟩ := Run.bind_eq_ok.mp ran
      obtain ⟨y, rfl⟩ := Run.GivesScalar.ofExcept (Operator.characterAt_regular _ _) _ _ _ read
      cases ran
      exact ⟨_, .none after.fits after.ranked, trivial⟩
    · cases ran
  · cases ran
    exact ⟨_, .none after.fits after.ranked, trivial⟩
  · obtain ⟨found, k, walked, ran⟩ := Run.bind_eq_ok.mp ran
    obtain ⟨reached, held⟩ := (Discipline.follows_walk laws.toLaws eval reached.1 value (by simp)
      fun e _ => Grammar.any_expr e).of_ran walked
    have state : k.Apart {} := reached.1
    cases ran
    exact Machine.Secludes.copied state.fits state.ranked held.1.1

theorem call_secludes {callee : Node} {args : List Node} {v : Value} (state : m.Apart {})
    (ran : Eval.call (calls fuel s) callee args m = .ok v n) :
    ∃ kept, n.Secludes kept ∧ v.Among kept := by
  obtain ⟨entry⟩ := Eval.Entry.exists_of_call ran
  obtain ⟨_, _, _, done⟩ := entry.apart state
  rw [entry.call_eq] at ran
  obtain ⟨_, l, finished, ran⟩ := Run.bind_eq_ok.mp ran
  rw [Run.last_of_ok finished] at done
  obtain ⟨w, k, taken, ran⟩ := Run.bind_eq_ok.mp ran
  cases ran
  obtain ⟨after, value, _⟩ := (Machine.apart_iff.mp done).taken taken
  obtain ⟨kept, secludes, among⟩ := Machine.Secludes.copied after.fits after.ranked value
  exact ⟨kept, secludes.closedTo _, among⟩

/-- The entries of a container literal, if its expressions give secluded values. -/
theorem items_secludes {entries : List (Scalar × Option Node)}
    (each : ∀ k e, (k, some e) ∈ entries → ∀ {m n v}, m.Apart {} →
      (calls fuel s).eval e m = .ok v n → ∃ kept, n.Secludes kept ∧ v.Among kept)
    {kept : Nat → Prop} (secludes : m.Secludes kept) {done made : Container Value}
    (values : ∀ v ∈ done.values, v.Fits .any m.store ∧ v.Among kept)
    (ran : Eval.items (calls fuel s) done entries m = .ok made n) :
    ∃ kept, n.Secludes kept ∧ ∀ v ∈ made.values, v.Fits .any n.store ∧ v.Among kept := by
  induction entries generalizing m kept done with
  | nil =>
      cases ran
      exact ⟨kept, secludes, values⟩
  | cons entry rest ih =>
      obtain ⟨k, found⟩ := entry
      cases found with
      | none => cases ran
      | some e =>
          obtain ⟨v, l, evaluated, ran⟩ := Run.bind_eq_ok.mp ran
          obtain ⟨⟨after, longer⟩, value, _⟩ := (Discipline.eval_follows (sparing_laws kept m.store)
            (sparing_admits kept m.store s.files) secludes.spares (Grammar.any_expr e)).of_ran
            evaluated
          obtain ⟨kept', own, among⟩ := each k e List.mem_cons_self
            (.of_ranked secludes.spares.fits secludes.spares.ranked) evaluated
          refine ih (fun k e member => each k e (List.mem_cons_of_mem _ member))
            ((secludes.later after).union own) (fun w member => ?_) ran
          rcases OrderedMap.mem_values_set member with rfl | before
          · exact ⟨value, among.imp fun _ => .inr⟩
          · obtain ⟨fits, among⟩ := values w before
            exact ⟨fits.mono longer, among.imp fun _ => .inl⟩

/-- **An expression that lends nothing gives a secluded value.** -/
theorem eval_secludes {e : Node} (own : ¬e.Lends) {v : Value} (state : m.Apart {})
    (ran : (calls fuel s).eval e m = .ok v n) : ∃ kept, n.Secludes kept ∧ v.Among kept := by
  induction fuel generalizing e m n v with
  | zero => cases ran
  | succ fuel ih =>
      have after := (eval_apart state ran).1
      have plain (gives : (Eval.expression s (calls fuel s) e).GivesScalar) :
          ∃ kept, n.Secludes kept ∧ v.Among kept := by
        obtain ⟨x, rfl⟩ := gives m v n ran
        exact ⟨_, .none after.fits after.ranked, trivial⟩
      cases e with
      | literal x => exact plain (.pure x)
      | native operation => exact plain (operation.run_givesScalar s)
      | arithmetic left op right =>
          exact plain (.bind fun a => .bind fun b => .bind fun k =>
            .ofExcept (Operator.arithmetic_regular k.store a op b))
      | unary op operand => exact plain (.bind fun a => .ofExcept (Operator.unary_regular op a))
      | condition left op right =>
          exact plain (.bind fun a => .bind fun b => .ofExcept (Operator.condition_regular a op b))
      | length operand =>
          refine plain (.bind fun a => .bind fun k => ?_)
          obtain ⟨x, same⟩ := Operator.length_scalar k.store a
          rw [same]
          exact .pure x
      | function site params body =>
          cases ran
          exact ⟨_, .none after.fits after.ranked, trivial⟩
      | name x => exact absurd (.name x) own
      | index base path =>
          obtain ⟨r, k, ran, made⟩ := Run.bind_eq_ok.mp ran
          cases made
          exact index_secludes state ran
      | call callee args => exact call_secludes state ran
      | container shape items =>
          obtain ⟨entries⟩ := items
          obtain ⟨made, k, evaluated, ran⟩ := Run.bind_eq_ok.mp ran
          have nothing := Machine.Secludes.none state.fits state.ranked
          obtain ⟨kept, secludes, values⟩ := items_secludes
            (fun k e member => ih fun lends => own (.item member lends)) nothing
            (fun _ member => absurd member List.not_mem_nil) evaluated
          cases ran
          exact ⟨_, secludes.pushed shape values, .inr rfl⟩
      | _ => cases ran

end Evaluation

/-! ## Expressions without calls -/

/-- An expression that calls a function when it is evaluated. -/
inductive Node.Invokes : Node → Prop where
  | call (callee : Node) (args : List Node) : Invokes (.call callee args)
  | part {whole e : Node} : e ∈ whole.exprs → Invokes e → Invokes whole

/-- Work without calls changes no container. -/
def growing : Discipline where
  state _ := True
  value _ _ := True
  expr e := ¬e.Invokes
  stmt _ := False
  stop _ := True
  moves _ m n := m.store.Extends n.store

theorem growing_laws : growing.Laws :=
  Discipline.tracking_laws (fun _ => .refl _) Store.Extends.trans
    (fun quiet member invokes => quiet (.part member invokes)) (fun m v => .copy m.store v)
    (fun m shape c => .push m.store shape c) fun _ _ _ _ _ _ => .refl _

theorem all_extends {fuel : Nat} {s : Surroundings} {args : List Node} {m n : Machine}
    {vs : List Value} (quiet : ∀ e ∈ args, ¬e.Invokes)
    (ran : Eval.all (calls fuel s) args m = .ok vs n) : m.store.Extends n.store := by
  have none : ¬growing.Invokes := by
    rintro ⟨callee, args, quiet⟩
    exact quiet (.call callee args)
  have eval := Discipline.evalFollows_of_not_invokes growing_laws none fuel s
  exact ((Discipline.follows_all growing_laws eval trivial quiet).of_ran ran).1.2

/-! ## Parameters -/

/-- What an argument amounts to changes only if it is a container that a name lends, and if a
later argument calls a function. -/
theorem view_of_later {fuel : Nat} {s : Surroundings} {l n k : Machine} {a : Node} {v : Value}
    {later : List Node} {vs : List Value} (state : l.Apart {})
    (evaluated : (calls fuel s).eval a l = .ok v n)
    (others : Eval.all (calls fuel s) later n = .ok vs k)
    (differs : k.store.view v ≠ n.store.view v) :
    (∃ shape ref, v = .container shape ref) ∧ a.Lends ∧ ∃ e ∈ later, e.Invokes := by
  obtain ⟨after, fits⟩ := eval_apart state evaluated
  refine ⟨?_, ?_, ?_⟩
  · cases v with
    | container shape ref => exact ⟨shape, ref, rfl⟩
    | scalar x => exact absurd (by simp [Store.view, Store.viewTo]) differs
    | function site params body => exact absurd (by simp [Store.view, Store.viewTo]) differs
  · by_contra own
    obtain ⟨kept, secludes, among⟩ := eval_secludes own state evaluated
    obtain ⟨⟨spares, longer⟩, _⟩ := (Discipline.follows_all (sparing_laws kept n.store).toLaws
      (Discipline.evalFollows_calls (sparing_laws kept n.store)
        (sparing_admits kept n.store s.files)) secludes.spares
      fun e _ => Grammar.any_expr e).of_ran others
    refine differs ((secludes.agrees spares longer).view_eq after.ranked ?_)
    rintro shape ref rfl
    exact among
  · by_contra quiet
    have grown : n.store.Extends k.store :=
      all_extends (fun e member invokes => quiet ⟨e, member, invokes⟩) others
    exact differs (grown.view_of_fits after.ranked fits)

/-- **Parameters are bound to copies of what arguments amount to after the last of them.** Let a
call in a reachable state get to the body of a function. It goes on with the body in the state in
which the parameters are bound. Binding them changed no container, and only added some that refer
to no older one. The parameter in the place of an argument is bound to a value in these, which
amounts to what the value of the argument amounts to after all arguments. This is what that value
amounted to when the argument was evaluated, unless it is a container, the argument lends it, and
a later argument calls a function. -/
theorem parameter_copies_argument {m : Machine} (reachable : Reachable m) {fuel : Nat}
    {s : Surroundings} {callee a : Node} {before later : List Node}
    (entry : Eval.Entry (calls fuel s) callee (before ++ a :: later) m) :
    Eval.call (calls fuel s) callee (before ++ a :: later) m =
      Eval.finish (calls fuel s) entry.body entry.receiver entry.ready entry.start ∧
    entry.ready.store.Apart entry.start.store ∧
    ∃ p vs l v n w, entry.params[before.length]? = some p ∧
      Eval.all (calls fuel s) before entry.asked = .ok vs l ∧
      (calls fuel s).eval a l = .ok v n ∧
      entry.start.bindings.find? p = some w ∧ w.Beyond entry.ready.store ∧
      entry.start.store.view w = entry.ready.store.view v ∧
      (entry.start.store.view w ≠ n.store.view v →
        (∃ shape ref, v = .container shape ref) ∧ a.Lends ∧ ∃ e ∈ later, e.Invokes) := by
  obtain ⟨asked, ready, fits, _⟩ := entry.apart reachable.apart
  obtain ⟨vs, l, ws, first, others, values, length⟩ := Eval.all_append entry.evaluated
  obtain ⟨v, n, evaluated, others⟩ := Run.bind_eq_ok.mp others
  obtain ⟨us, k, others, made⟩ := Run.bind_eq_ok.mp others
  cases made
  have short : before.length < entry.params.length := by
    rw [entry.count, List.length_append, List.length_cons]
    omega
  obtain ⟨p, param⟩ : ∃ p, entry.params[before.length]? = some p :=
    ⟨_, List.getElem?_eq_getElem short⟩
  have member : (p, v) ∈ entry.params.zip entry.values := by
    refine List.mem_of_getElem? (i := before.length) (List.getElem?_zip_eq_some.mpr ⟨param, ?_⟩)
    rw [values, ← length]
    simp
  obtain ⟨grown, _, bound⟩ := Eval.bindParams_copies ready.ranked
    (fun pair member => fits _ (List.of_mem_zip member).2) entry.bound
  obtain ⟨w, found, beyond, same⟩ := bound (p, v) member
  refine ⟨entry.call_eq, grown, p, vs, l, v, n, w, param, first, evaluated, found, beyond, same,
    fun differs => ?_⟩
  rw [same] at differs
  exact view_of_later (all_apart asked first).1 evaluated others differs

/-- An index path gives a copy, which a later argument cannot change: here one calls a function
that changes what is at the path, and the parameter has what was there before. -/
theorem parameter_copies_index :
    let m := (Block.run 9 {} [
      ⟨1, .bind "o" (.container .object ⟨[(.string "k", some (.container .object
        ⟨[(.string "n", some (.text "old"))]⟩))]⟩)⟩,
      ⟨2, .bind "g" (.function 7 [] [⟨2, .assign (.name "o") [.text "k", .text "n"]
        (.text "new")⟩])⟩,
      ⟨3, .bind "f" (.function 8 ["x", "y"] [⟨3, .give (.name "x")⟩])⟩]).last (Machine.start [])
    let path : Node := .index (.name "o") [.text "k"]
    Reachable m ∧
    ∃ (entry : Eval.Entry (calls 9 {}) (.name "f") ([] ++ path :: [.call (.name "g") []]) m)
      (v w : Value) (n : Machine), (calls 9 {}).eval path entry.ready = .ok v n ∧
      n.store.view v = .container .object ⟨[(.string "n", some (.scalar (.string "new")))]⟩ ∧
      entry.start.bindings.find? "x" = some w ∧
      entry.start.store.view w =
        .container .object ⟨[(.string "n", some (.scalar (.string "old")))]⟩ := by
  intro m path
  have reachable : Reachable m := .run (.start []) (.last 9 {} _ _)
  let inner (t : Text) : Container Value := .ofList [(.string "n", .text t)]
  let outer (ref : Nat) : Container Value := .ofList [(.string "k", .container .object ref)]
  let reached (params : List (Text × Value)) (cells : Array (Container Value)) : Machine :=
    { Machine.start [] with
      bindings := .ofList ((Native.bindings 0).pairs ++ ([("o", .container .object 3),
        ("g", .function 7 [] [⟨2, .assign (.name "o") [.text "k", .text "n"] (.text "new")⟩]),
        ("f", .function 8 ["x", "y"] [⟨3, .give (.name "x")⟩])] : List (Text × Value)) ++ params)
      store := ⟨cells⟩ }
  have own : ¬Node.Lends (.index (.name "o") [.text "k"]) := by rintro ⟨⟩
  have before : m = reached [] #[inner "old", outer 0, inner "old", outer 2] := rfl
  clear_value m
  subst before
  have evaluated : Eval.all (calls 9 {}) [path, .call (.name "g") []]
      (reached [] #[inner "old", outer 0, inner "old", outer 2]) =
      .ok [.container .object 4, .null]
        (reached [] #[inner "old", outer 0, inner "new", outer 2, inner "old"]) := rfl
  have bound : Eval.bindParams [] [("x", .container .object 4), ("y", .null)]
      (reached [] #[inner "old", outer 0, inner "new", outer 2, inner "old"]) =
      .ok () (reached [("x", .container .object 5), ("y", .null)]
        #[inner "old", outer 0, inner "new", outer 2, inner "old", inner "old"]) := rfl
  let entry : Eval.Entry (calls 9 {}) (.name "f") ([] ++ path :: [.call (.name "g") []])
      (reached [] #[inner "old", outer 0, inner "old", outer 2]) :=
    ⟨8, ["x", "y"], _, none, _, _, _, _, rfl, rfl, evaluated, bound⟩
  obtain ⟨_, _, p, vs, l, v, n, w, param, first, read, found, _, _, settled⟩ :=
    parameter_copies_argument reachable entry
  cases param
  cases first
  cases read
  refine ⟨reachable, entry, .container .object 5, w, reached []
    #[inner "old", outer 0, inner "new", outer 2, inner "old", inner "new"], rfl, rfl, found, ?_⟩
  by_contra differs
  obtain ⟨_, lends, _⟩ := settled differs
  exact own lends

/-- A name gives the container itself, and a later argument that calls a function can change
it. -/
theorem parameter_copies_changed_argument :
    let m := (Block.run 9 {} [
      ⟨1, .bind "a" (.container .object ⟨[(.string "k", some (.text "old"))]⟩)⟩,
      ⟨2, .bind "g" (.function 7 [] [⟨2, .assign (.name "a") [.text "k"] (.text "new")⟩])⟩,
      ⟨3, .bind "f" (.function 8 ["x", "y"] [⟨3, .give (.name "x")⟩])⟩]).last (Machine.start [])
    Reachable m ∧
    ∃ (entry : Eval.Entry (calls 9 {}) (.name "f") [.name "a", .call (.name "g") []] m)
      (v w : Value) (n : Machine), (calls 9 {}).eval (.name "a") entry.asked = .ok v n ∧
      n.store.view v = .container .object ⟨[(.string "k", some (.scalar (.string "old")))]⟩ ∧
      entry.start.bindings.find? "x" = some w ∧
      entry.start.store.view w =
        .container .object ⟨[(.string "k", some (.scalar (.string "new")))]⟩ := by
  intro m
  have reachable : Reachable m := .run (.start []) (.last 9 {} _ _)
  let content (t : Text) : Container Value := .ofList [(.string "k", .text t)]
  let reached (params : List (Text × Value)) (cells : Array (Container Value)) : Machine :=
    { Machine.start [] with
      bindings := .ofList ((Native.bindings 0).pairs ++ ([("a", .container .object 1),
        ("g", .function 7 [] [⟨2, .assign (.name "a") [.text "k"] (.text "new")⟩]),
        ("f", .function 8 ["x", "y"] [⟨3, .give (.name "x")⟩])] : List (Text × Value)) ++ params)
      store := ⟨cells⟩ }
  have before : m = reached [] #[content "old", content "old"] := rfl
  clear_value m
  subst before
  have evaluated : Eval.all (calls 9 {}) [.name "a", .call (.name "g") []]
      (reached [] #[content "old", content "old"]) =
      .ok [.container .object 1, .null] (reached [] #[content "old", content "new"]) := rfl
  have bound : Eval.bindParams [] [("x", .container .object 1), ("y", .null)]
      (reached [] #[content "old", content "new"]) =
      .ok () (reached [("x", .container .object 2), ("y", .null)]
        #[content "old", content "new", content "new"]) := rfl
  exact ⟨reachable, ⟨8, ["x", "y"], _, none, _, _, _, _, rfl, rfl, evaluated, bound⟩,
    .container .object 1, .container .object 2, _, rfl, rfl, rfl, rfl⟩

end EplLang
