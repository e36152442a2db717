import EplLang.Proofs.Discipline.Expression

/-!
# Statements keep to a discipline

The same for statements, from `BlockLaws`, and for calls and imports, from
`RegionLaws`. A branch, a loop or a call is a region: what happens inside it is work of
the coarsest grain, and closing it makes the whole work of a finer one, for a call of the
finest. So only binding a name and importing a file are coarsest when they complete.
An assignment is a search, which may fail, and then one change (`Eval.assign_eq`).

In `EplLang.Proofs.Moment` everything is tied together: every amount of fuel keeps
to a discipline with these laws, in surroundings whose files it admits.
-/

set_option autoImplicit false

namespace EplLang

/-- How much a completed statement may do. -/
def Stmt.grain (st : Stmt) : Grain :=
  match st.node with
  | .bind .. | .load _ => .statement
  | _ => .region

/-! ## What an assignment looks for -/

namespace Eval

/-- What an assignment finds before it changes anything: the container, the key and the
value. -/
def target (c : Calls) (base : Node) (path : List Node) (value : Node) :
    Run (Nat × Scalar × Value) := do
  let v ← c.eval base
  match path.getLast? with
  | none => throw .malformed
  | some last =>
    match ← walk c v none path.dropLast with
    | (.container shape ref, _) =>
      let k ← key c last
      if shape = .array ∧ k.form ≠ .number then Run.fail (.wrongType k.form .number)
      else return (ref, k, ← c.eval value)
    | (v, _) => Run.fail (.notAssignable v.form)

/-- An assignment changes an entry after it has found everything, and then does not fail. -/
theorem assign_eq (c : Calls) (base : Node) (path : List Node) (value : Node) (m : Machine) :
    assign c base path value m =
      (target c base path value >>= fun found : Nat × Scalar × Value =>
        modify fun n => n.storedAt found.1 found.2.1 found.2.2) m := by
  rw [assign, target, bind_assoc]
  refine Run.bind_congr fun v n _ => ?_
  cases path.getLast? with
  | none => rfl
  | some last =>
      dsimp only
      rw [bind_assoc]
      refine Run.bind_congr fun found n _ => ?_
      obtain ⟨w, above⟩ := found
      cases w with
      | container shape ref =>
          dsimp only
          rw [bind_assoc]
          refine Run.bind_congr fun k n _ => ?_
          split
          · rfl
          · rw [bind_assoc]
            rfl
      | scalar x => rfl
      | function site params body => rfl

end Eval

namespace Discipline

variable {d : Discipline}

/-- The execution of statements keeps to the discipline. -/
def ExecFollows (d : Discipline) (c c' : Calls) : Prop :=
  ∀ st m, d.stmt st → d.state m → d.ready m →
    d.Follows st.grain (fun _ _ => True) (c.exec st) (c'.exec st) m

/-! ## Blocks and calls -/

section Actions

variable (laws : d.BlockLaws) {α : Type} {m : Machine} (state : d.state m)
include laws state

/-- Closing a region that started at a state. -/
theorem follows_close {n : Machine} (leads : d.Leads .statement m n) {P : Store → α → Prop} {a : α}
    (holds : P n.store a) :
    d.FollowsFrom m .region P (Run.close m.bindings.names >>= fun _ => pure a)
      (Run.close m.bindings.names >>= fun _ => pure a) n :=
  ⟨rfl, laws.closed state leads, holds⟩

/-- Binding a name to a copy and going on. -/
theorem follows_bound {n : Text} (name : d.name n) {v : Value} (value : d.value m.store v)
    {P : Store → α → Prop} {f h : Unit → Run α}
    (next : d.Leads .statement m (m.boundTo n v) →
      d.Follows .statement P (f ()) (h ()) (m.boundTo n v)) :
    d.Follows .statement P (Run.copy v >>= fun w => Run.bindName n w >>= f)
      (Run.copy v >>= fun w => Run.bindName n w >>= h) m := by
  have leads := laws.bound n name state value
  have rest := (next leads).after laws.toLaws leads
  exact rest

theorem follows_bindParams {pairs : List (Text × Value)} {seen : List Text}
    (names : ∀ pair ∈ pairs, d.name pair.1)
    (values : ∀ pair ∈ pairs, d.value m.store pair.2) :
    d.Follows .statement (fun _ _ => True) (Eval.bindParams seen pairs)
      (Eval.bindParams seen pairs) m := by
  induction pairs generalizing seen m with
  | nil => exact .pure laws.toLaws state trivial
  | cons pair rest ih =>
      obtain ⟨n, v⟩ := pair
      obtain ⟨name, names⟩ := List.forall_mem_cons.mp names
      obtain ⟨first, others⟩ := List.forall_mem_cons.mp values
      simp only [Eval.bindParams]
      split
      · exact .fail laws.toLaws state trivial
      · exact follows_bound laws state name first fun leads =>
          ih leads.1 names fun pair member => leads.value laws.toLaws (others pair member)

theorem follows_roundEnds (depth : Eval.Depth) :
    d.Follows .statement (fun _ _ => True) (Eval.roundEnds depth) (Eval.roundEnds depth) m := by
  unfold Eval.roundEnds
  refine .get ?_
  split
  · exact .of_ok rfl ((laws.ended state).toStatement laws.toLaws) trivial
  · exact .pure laws.toLaws state trivial

theorem follows_merge {bound : List (Text × Value)}
    (names : ∀ entry ∈ bound, ∀ k, d.state k → entry.1 ∉ k.bindings.names → d.name entry.1)
    (values : ∀ entry ∈ bound, d.value m.store entry.2) :
    d.Follows .statement (fun _ _ => True) (Eval.merge bound) (Eval.merge bound) m := by
  induction bound generalizing m with
  | nil => exact .pure laws.toLaws state trivial
  | cons entry rest ih =>
      obtain ⟨n, v⟩ := entry
      obtain ⟨name, names⟩ := List.forall_mem_cons.mp names
      obtain ⟨first, others⟩ := List.forall_mem_cons.mp values
      unfold Eval.merge
      refine .get ?_
      dsimp only
      split
      · rename_i absent
        have new : n ∉ m.bindings.names := by
          rw [← Bindings.find?_isSome_iff]
          simpa using absent
        exact follows_bound laws state (name m state new) first fun leads =>
          ih leads.1 names fun pair member => leads.value laws.toLaws (others pair member)
      · exact ih state names others

theorem follows_loopRegion {x y : Eval.Depth → Run Unit}
    (rounds : ∀ depth, d.Follows .statement (fun _ _ => True) (x depth) (y depth) m) :
    d.Follows .region (fun _ _ => True) (Eval.loopRegion x) (Eval.loopRegion y) m := by
  unfold Eval.loopRegion
  refine .names (.get ?_)
  exact Follows.bindFrom (rounds ⟨m.breaks, m.returns.length⟩) fun _ k leads _ =>
    follows_close laws state leads trivial

omit laws state in
theorem refusal?_proper {s : Surroundings} {path : Text} {cause : Cause}
    (refused : Eval.refusal? s path = some cause) : cause.Proper := by
  unfold Eval.refusal? at refused
  split at refused
  · cases refused
    trivial
  · split at refused
    · cases refused
      trivial
    · cases refused

theorem follows_load {files : Text → Option Text} (imports : d.Imports)
    (admits : d.Admits files) {path source : Text} (file : files path = some source) :
    d.Follows .statement (fun _ body => ∀ st ∈ body, d.stmt st) (Eval.load source)
      (Eval.load source) m := by
  obtain ⟨parsed, refused⟩ := admits imports path source file
  unfold Eval.load
  refine .get ?_
  split
  · rename_i e failed
    exact .throw laws.toLaws state (refused m.site e failed)
  · rename_i body next done
    exact .of_ok rfl ((laws.marked m.line next state).coarsen laws.toLaws)
      fun st member => parsed m.site body next st done member

end Actions

section Calls

variable (laws : d.RegionLaws) {α : Type} {m : Machine} (state : d.state m)
include laws state

/-- The end of a call: it takes the value returned to it and closes its region. -/
theorem follows_returned {n : Machine} (leads : d.Leads .statement m n) :
    d.FollowsFrom m .expression d.value
      (do let v ← Run.copy (← Eval.takeReturn m.returns.length); Run.close m.bindings.names; return v)
      (do let v ← Run.copy (← Eval.takeReturn m.returns.length); Run.close m.bindings.names; return v)
      n := by
  refine ⟨rfl, ?_⟩
  obtain ⟨v, k, taken⟩ := takeReturn_ok m.returns.length n
  rw [Run.bind_of_ok taken]
  exact laws.returned state leads taken

theorem follows_withReceiver {receiver : Option Value} {P : Store → α → Prop} {x y : Run α}
    (values : ∀ v ∈ receiver, d.value m.store v)
    (body : ∀ n, d.state n → d.Follows .statement P x y n) :
    d.Follows .statement P (Run.withReceiver receiver x) (Run.withReceiver receiver y) m := by
  obtain ⟨same, outcome⟩ := body _ (laws.entered state values)
  unfold Follows FollowsFrom Run.withReceiver
  rw [same]
  refine ⟨rfl, ?_⟩
  cases ran : x { m with receiver := receiver.or m.receiver } with
  | ok a n =>
      rw [ran] at outcome
      exact ⟨laws.left state outcome.1, outcome.2⟩
  | error e n =>
      rw [ran] at outcome
      exact ⟨laws.left state outcome.1, outcome.2⟩

theorem follows_inNewFrame (imports : d.Imports) {x y : Run Unit}
    (body : d.Follows .statement (fun _ _ => True) x y m.importing) :
    d.Follows .statement (fun s bound =>
        (∀ entry ∈ bound.pairs, ∀ k, d.state k → entry.1 ∉ k.bindings.names → d.name entry.1) ∧
        ∀ entry ∈ bound.pairs, d.value s entry.2)
      (Eval.inNewFrame x) (Eval.inNewFrame y) m := by
  obtain ⟨same, outcome⟩ := body
  unfold Follows FollowsFrom
  cases ran : x m.importing with
  | ok _ n =>
      rw [ran] at same outcome
      rw [inNewFrame_of_ok ran, inNewFrame_of_ok same]
      have values : ∀ entry ∈ n.bindings.pairs, d.value n.store entry.2 :=
        fun entry member => laws.named outcome.1.1 (.bound (n.bindings.mem_pairs.mp member))
      refine ⟨rfl, (laws.resuming imports state outcome.1).coarsen laws.toLaws, ?_, values⟩
      intro entry member k other new
      have bound := n.bindings.mem_names (n.bindings.mem_pairs.mp member)
      exact laws.imported imports outcome.1 bound other new
  | error e n =>
      rw [ran] at same outcome
      rw [inNewFrame_of_error ran, inNewFrame_of_error same]
      exact ⟨rfl, (laws.resuming imports state outcome.1).coarsen laws.toLaws, outcome.2⟩

end Calls

section Blocks

variable (laws : d.BlockLaws) {c c' : Calls} (exec : d.ExecFollows c c')
include laws exec

theorem follows_block {body : Block} {m : Machine} (state : d.state m)
    (stmts : ∀ st ∈ body, d.stmt st) :
    d.Follows .statement (fun _ _ => True) (Eval.block c body) (Eval.block c' body) m := by
  induction body generalizing m with
  | nil => exact .pure laws.toLaws state trivial
  | cons st rest ih =>
      obtain ⟨first, others⟩ := List.forall_mem_cons.mp stmts
      unfold Eval.block
      refine .get ?_
      split
      · exact .pure laws.toLaws state trivial
      · rename_i free
        have ready := laws.prompt state (Bool.eq_false_iff.mpr free)
        refine ((exec st m first state ready).toStatement laws.toLaws).bind laws.toLaws
          fun _ k reached _ => ?_
        exact ih reached.1 others

/-- One round of a loop, then the others unless the round ends the loop. -/
theorem follows_round (depth : Eval.Depth) {body : Block} {x y : Run Unit} {m : Machine}
    (state : d.state m) (stmts : ∀ st ∈ body, d.stmt st)
    (others : ∀ n, d.Leads .statement m n → d.Follows .statement (fun _ _ => True) x y n) :
    d.Follows .statement (fun _ _ => True)
      (do Eval.block c body; if ← Eval.roundEnds depth then pure () else x)
      (do Eval.block c' body; if ← Eval.roundEnds depth then pure () else y) m := by
  refine (follows_block laws exec state stmts).bind laws.toLaws fun _ k reached _ => ?_
  refine (follows_roundEnds laws reached.1 depth).bind laws.toLaws fun ends k later _ => ?_
  split
  · exact .pure laws.toLaws later.1 trivial
  · exact others k (reached.trans laws.toLaws later)

theorem follows_rangeRounds {n : Text} {body : Block} {depth : Eval.Depth} {m : Machine}
    (count : Nat) (i : Int) (name : d.name n) (state : d.state m) (stmts : ∀ st ∈ body, d.stmt st) :
    d.Follows .statement (fun _ _ => True) (Eval.rangeRounds c n body depth count i)
      (Eval.rangeRounds c' n body depth count i) m := by
  induction count generalizing m i with
  | zero => exact .pure laws.toLaws state trivial
  | succ count ih =>
      have value := laws.scalar m.store (.number (Binary64.ofInt i))
      have leads := laws.bound n name state value
      have binding : Run.bindName n (.number (Binary64.ofInt i)) m =
          .ok () (m.boundTo n (.number (Binary64.ofInt i))) := by
        unfold Machine.boundTo Machine.copied Value.number
        rw [Store.copy_scalar]
        rfl
      refine (Follows.of_ok (P := fun _ _ => True) binding leads trivial).bind laws.toLaws
        fun _ k reached _ => ?_
      exact follows_round laws exec depth reached.1 stmts fun n reached => ih (i + 1) reached.1

theorem follows_eachRounds {n : Text} {shape : Shape} {ref : Nat} {body : Block}
    {depth : Eval.Depth} {keys : List Scalar} {m : Machine} (name : d.name n) (state : d.state m)
    (container : d.value m.store (.container shape ref)) (stmts : ∀ st ∈ body, d.stmt st) :
    d.Follows .statement (fun _ _ => True) (Eval.eachRounds c n ref body depth keys)
      (Eval.eachRounds c' n ref body depth keys) m := by
  induction keys generalizing m with
  | nil => exact .pure laws.toLaws state trivial
  | cons k rest ih =>
      have value : d.value m.store (((m.store.get ref).get? k).getD .null) := by
        cases found : (m.store.get ref).get? k with
        | none => exact laws.scalar _ _
        | some v =>
            obtain ⟨key, member, -⟩ := OrderedMap.exists_mem_entries _ found
            exact laws.entry state container member
      have leads := laws.boundEntry n k name state value
      have rounds := follows_round laws exec depth leads.1 stmts fun n later =>
        ih later.1 (later.value laws.toLaws (leads.value laws.toLaws container))
      have after := rounds.after laws.toLaws leads
      exact after

end Blocks

/-- **Calls keep to a discipline.** -/
theorem follows_invoke (laws : d.RegionLaws) {c c' : Calls} (exec : d.ExecFollows c c') :
    d.InvokeFollows c c' := by
  intro site params body args receiver m function values receivers state
  have pairs : ∀ pair ∈ params.zip args, d.value m.store pair.2 :=
    fun pair member => values _ (List.of_mem_zip member).2
  have names : ∀ pair ∈ params.zip args, d.name pair.1 :=
    fun pair member => laws.param function (List.of_mem_zip member).1
  have stmts : ∀ st ∈ body, d.stmt st := fun st member => laws.body function member
  unfold Eval.invoke
  refine .names (.get ?_)
  refine Follows.bindFrom (follows_bindParams laws.toBlockLaws state names pairs)
    fun _ k leads _ => ?_
  have receivers' : ∀ v ∈ receiver, d.value k.store v :=
    fun v member => leads.value laws.toLaws (receivers v member)
  refine Follows.bindFrom (Follows.after laws.toLaws leads
    (follows_withReceiver laws leads.1 receivers' fun n state =>
      follows_block laws.toBlockLaws exec state stmts)) fun _ k leads _ => ?_
  exact follows_returned laws state leads

/-! ## The forms of statements -/

section Parts

variable (laws : d.Laws) {c c' : Calls} (eval : d.EvalFollows c c')
include laws eval

theorem follows_target {base : Node} {path : List Node} {value : Node} {m : Machine}
    (state : d.state m) (baseExpr : d.expr base) (exprs : ∀ n ∈ path, d.expr n)
    (valueExpr : d.expr value) (leads : path ≠ [] ∨ ∀ e, d.stop e) :
    d.Follows .expression
      (fun s found => (∃ shape, d.value s (.container shape found.1)) ∧ d.value s found.2.2)
      (Eval.target c base path value) (Eval.target c' base path value) m := by
  unfold Eval.target
  refine (eval base m baseExpr state).bind laws fun v k reached held => ?_
  split
  · rename_i empty
    rcases leads with somewhere | stops
    · exact absurd (List.getLast?_eq_none_iff.mp empty) somewhere
    · exact .throw laws reached.1 (stops _)
  · rename_i last final
    have lastExpr : d.expr last := exprs last (List.mem_of_getLast? final)
    have others : ∀ n ∈ path.dropLast, d.expr n :=
      fun n member => exprs n (List.dropLast_subset _ member)
    refine (follows_walk laws eval reached.1 held (by simp) others).bind laws
      fun found k reached values => ?_
    split
    · rename_i shape ref above
      refine (follows_key laws eval reached.1 lastExpr).bind laws fun key k reached _ => ?_
      split
      · exact .fail laws reached.1 trivial
      · refine (eval value k valueExpr reached.1).bind laws fun w k later held => ?_
        exact .pure laws later.1 ⟨⟨shape, later.value laws (reached.value laws values.1)⟩, held⟩
    · exact .fail laws reached.1 trivial

theorem follows_assign (assigns : d.Assigns) {base : Node} {path : List Node} {value : Node}
    {m : Machine} (state : d.state m) (baseExpr : d.expr base) (exprs : ∀ n ∈ path, d.expr n)
    (valueExpr : d.expr value) (leads : path ≠ [] ∨ ∀ e, d.stop e) :
    d.Follows .expression (fun _ _ => True) (Eval.assign c base path value)
      (Eval.assign c' base path value) m := by
  refine .congr (Eval.assign_eq ..) (Eval.assign_eq ..) ?_
  refine (follows_target laws eval state baseExpr exprs valueExpr leads).bind laws
    fun found k reached values => ?_
  obtain ⟨⟨shape, container⟩, held⟩ := values
  exact .of_ok rfl (laws.stored found.2.1 assigns reached.1 container held) trivial

theorem follows_test {n : Node} {m : Machine} (state : d.state m) (expr : d.expr n) :
    d.Follows .expression (fun _ _ => True) (Eval.test c n) (Eval.test c' n) m := by
  unfold Eval.test
  refine (eval n m expr state).bind laws fun v k reached _ => ?_
  exact .get (.pure laws reached.1 trivial)

end Parts

theorem follows_importFile (laws : d.RegionLaws) {c c' : Calls} (eval : d.EvalFollows c c')
    {s : Surroundings} {inside inside' : Surroundings → Calls} (imports : d.Imports)
    (admits : d.Admits s.files)
    (nested : ∀ path, d.ExecFollows (inside (s.entering path)) (inside' (s.entering path)))
    {n : Node} {m : Machine} (state : d.state m) (expr : d.expr n) :
    d.Follows .statement (fun _ _ => True) (Eval.importFile s c inside n)
      (Eval.importFile s c' inside' n) m := by
  unfold Eval.importFile
  refine ((eval n m expr state).coarsen laws.toLaws).bind laws.toLaws fun v k reached _ => ?_
  split
  · dsimp only
    split
    · rename_i cause refused
      exact .fail laws.toLaws reached.1 (refusal?_proper refused)
    · split
      · exact .fail laws.toLaws reached.1 trivial
      · rename_i source file
        refine (follows_load laws.toBlockLaws reached.1 imports admits file).bind laws.toLaws
          fun body k reached stmts => ?_
        refine (follows_inNewFrame laws reached.1 imports (follows_block laws.toBlockLaws (nested _)
          (laws.importing imports reached.1) stmts)).bind laws.toLaws
          fun bound k reached taken => ?_
        exact follows_merge laws.toBlockLaws reached.1 taken.1 taken.2
  · exact .fail laws.toLaws reached.1 trivial

section Compounds

variable (laws : d.BlockLaws) {c c' : Calls} (eval : d.EvalFollows c c')
  (exec : d.ExecFollows c c')
include laws eval exec

theorem follows_elifs {otherwise : Option Block} {elifs : List (Node × Block)} {m : Machine}
    (state : d.state m) (exprs : ∀ elif ∈ elifs, d.expr elif.1)
    (bodies : ∀ elif ∈ elifs, ∀ st ∈ elif.2, d.stmt st)
    (last : ∀ body ∈ otherwise, ∀ st ∈ body, d.stmt st) :
    d.Follows .statement (fun _ _ => True) (Eval.elifs c otherwise elifs)
      (Eval.elifs c' otherwise elifs) m := by
  induction elifs generalizing m with
  | nil =>
      cases otherwise with
      | none => exact .pure laws.toLaws state trivial
      | some body => exact follows_block laws exec state (last body rfl)
  | cons elif rest ih =>
      obtain ⟨expr, others⟩ := List.forall_mem_cons.mp exprs
      obtain ⟨body, bodies⟩ := List.forall_mem_cons.mp bodies
      refine ((follows_test laws.toLaws eval state expr).coarsen laws.toLaws).bind laws.toLaws
        fun holds k reached _ => ?_
      split
      · exact follows_block laws exec reached.1 body
      · exact ih reached.1 others bodies

theorem follows_branch {n : Node} {body : Block} {elifs : List (Node × Block)}
    {otherwise : Option Block} {m : Machine} (state : d.state m) (expr : d.expr n)
    (stmts : ∀ st ∈ body, d.stmt st) (exprs : ∀ elif ∈ elifs, d.expr elif.1)
    (bodies : ∀ elif ∈ elifs, ∀ st ∈ elif.2, d.stmt st)
    (last : ∀ body ∈ otherwise, ∀ st ∈ body, d.stmt st) :
    d.Follows .region (fun _ _ => True) (Eval.branch c n body elifs otherwise)
      (Eval.branch c' n body elifs otherwise) m := by
  unfold Eval.branch
  refine ((follows_test laws.toLaws eval state expr).coarsen laws.toLaws).bind laws.toLaws
    fun holds k reached _ => ?_
  refine .names ?_
  dsimp only
  split
  · exact Follows.bindFrom (follows_block laws exec reached.1 stmts) fun _ n leads _ =>
      follows_close laws reached.1 leads trivial
  · exact Follows.bindFrom (follows_elifs laws eval exec reached.1 exprs bodies last)
      fun _ n leads _ => follows_close laws reached.1 leads trivial

theorem follows_whileRounds {n : Node} {body : Block} {depth : Eval.Depth} {m : Machine}
    (bound : Nat) (state : d.state m) (expr : d.expr n) (stmts : ∀ st ∈ body, d.stmt st) :
    d.Follows .statement (fun _ _ => True) (Eval.whileRounds c n body depth bound)
      (Eval.whileRounds c' n body depth bound) m := by
  induction bound generalizing m with
  | zero => exact .throw laws.toLaws state laws.outOfFuel
  | succ bound ih =>
      refine ((follows_test laws.toLaws eval state expr).coarsen laws.toLaws).bind laws.toLaws
        fun holds k reached _ => ?_
      split
      · exact follows_round laws exec depth reached.1 stmts fun n later => ih later.1
      · exact .pure laws.toLaws reached.1 trivial

theorem follows_range {n : Text} {first last : Node} {body : Block} {m : Machine}
    (name : d.name n) (state : d.state m) (firstExpr : d.expr first) (lastExpr : d.expr last)
    (stmts : ∀ st ∈ body, d.stmt st) :
    d.Follows .region (fun _ _ => True) (Eval.range c n first last body)
      (Eval.range c' n first last body) m := by
  unfold Eval.range
  refine ((eval first m firstExpr state).coarsen laws.toLaws).bind laws.toLaws
    fun a k reached _ => ?_
  refine ((eval last k lastExpr reached.1).coarsen laws.toLaws).bind laws.toLaws
    fun b k reached _ => ?_
  split
  · split
    · exact .pure laws.toLaws reached.1 trivial
    · split
      · exact follows_loopRegion laws reached.1 fun depth =>
          follows_rangeRounds laws exec _ _ name reached.1 stmts
      · exact .fail laws.toLaws reached.1 trivial
  · exact .fail laws.toLaws reached.1 trivial
  · exact .fail laws.toLaws reached.1 trivial

theorem follows_each {n : Text} {collection : Node} {body : Block} {m : Machine}
    (name : d.name n) (state : d.state m) (expr : d.expr collection)
    (stmts : ∀ st ∈ body, d.stmt st) :
    d.Follows .region (fun _ _ => True) (Eval.each c n collection body)
      (Eval.each c' n collection body) m := by
  unfold Eval.each
  refine ((eval collection m expr state).coarsen laws.toLaws).bind laws.toLaws
    fun v k reached value => ?_
  split
  · exact .get (follows_loopRegion laws reached.1 fun depth =>
      follows_eachRounds laws exec name reached.1 value stmts)
  · exact .fail laws.toLaws reached.1 trivial

end Compounds

/-- **Statements keep to a discipline.** -/
theorem follows_statement (laws : d.RegionLaws) {c c' : Calls} (eval : d.EvalFollows c c')
    (exec : d.ExecFollows c c') {s : Surroundings} {inside inside' : Surroundings → Calls}
    (admits : d.Admits s.files)
    (nested : ∀ path, d.ExecFollows (inside (s.entering path)) (inside' (s.entering path)))
    (bound : Nat) {st : Stmt} {m : Machine} (state : d.state m) (ready : d.ready m)
    (stmt : d.stmt st) :
    d.Follows st.grain (fun _ _ => True) (Eval.statement s c inside bound st)
      (Eval.statement s c' inside' bound st) m := by
  obtain ⟨line, node⟩ := st
  have parts : ∀ e ∈ node.exprs, d.expr e := fun e member => laws.stmtParts stmt member
  have bodies : ∀ body ∈ node.blocks, ∀ st ∈ body, d.stmt st :=
    fun body member st inside => laws.stmtBlocks stmt member inside
  have meaning : node.IsStatement ∨ ∀ e, d.stop e := laws.stmtMeaning stmt
  cases node with
  | newLine => exact .of_ok rfl ((laws.marked line m.site state).coarsen laws.toLaws) trivial
  | bind n value =>
      refine ((eval value m (parts _ List.mem_cons_self) state).coarsen laws.toLaws).bind
        laws.toLaws fun v k reached held => ?_
      exact .of_ok rfl (laws.bound n (laws.stmtName stmt List.mem_cons_self) reached.1 held) trivial
  | assign base path value =>
      exact (follows_assign laws.toLaws eval ⟨_, _, _, _, stmt⟩ state (parts _ List.mem_cons_self)
        (fun e member => parts e (List.mem_cons_of_mem _ (List.mem_cons_of_mem _ member)))
        (parts _ (List.mem_cons_of_mem _ List.mem_cons_self)) meaning).coarsen laws.toLaws
  | give value =>
      refine Follows.bindFrom (eval value m (parts _ List.mem_cons_self) state)
        fun v k reached held => ?_
      exact ⟨rfl, laws.given ready reached held, trivial⟩
  | leave => exact .of_ok rfl (laws.broken state ready) trivial
  | native operation =>
      exact ((follows_native laws.toLaws state (.inr ⟨_, _, stmt⟩) s operation).bind laws.toLaws
        fun _ k reached _ => .pure laws.toLaws reached.1 trivial).coarsen laws.toLaws
  | load path =>
      exact follows_importFile laws eval ⟨_, _, stmt⟩ admits nested state
        (parts _ List.mem_cons_self)
  | call callee args =>
      exact ((follows_call laws.toLaws eval (follows_invoke laws exec) state
        (parts _ List.mem_cons_self) fun e member => parts e (List.mem_cons_of_mem _ member)).bind
        laws.toLaws fun _ k reached _ => .pure laws.toLaws reached.1 trivial).coarsen laws.toLaws
  | branch test body elifs otherwise =>
      refine follows_branch laws.toBlockLaws eval exec state (parts _ List.mem_cons_self)
        (bodies _ List.mem_cons_self) (fun elif member => parts _ ?_)
        (fun elif member => bodies _ ?_) (fun last member => bodies _ ?_)
      · exact List.mem_cons_of_mem _ (List.mem_map_of_mem member)
      · exact List.mem_cons_of_mem _ (List.mem_append_left _ (List.mem_map_of_mem member))
      · exact List.mem_cons_of_mem _ (List.mem_append_right _ (Option.mem_toList.mpr member))
  | loop test body =>
      exact follows_loopRegion laws.toBlockLaws state fun depth =>
        follows_whileRounds laws.toBlockLaws eval exec bound state (parts _ List.mem_cons_self)
          (bodies _ List.mem_cons_self)
  | range n first last body =>
      exact follows_range laws.toBlockLaws eval exec (laws.stmtName stmt List.mem_cons_self) state
        (parts _ List.mem_cons_self) (parts _ (List.mem_cons_of_mem _ List.mem_cons_self))
        (bodies _ List.mem_cons_self)
  | each n collection body =>
      exact follows_each laws.toBlockLaws eval exec (laws.stmtName stmt List.mem_cons_self) state
        (parts _ List.mem_cons_self) (bodies _ List.mem_cons_self)
  | _ => exact .of_error laws.toLaws rfl state (meaning.resolve_left (fun none => none) _)

end Discipline

end EplLang
