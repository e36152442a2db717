import EplLang.Proofs.Apart

/-!
# Imports add names and change nothing

An import either succeeds or fails, and it is clear which: it succeeds when its path is a
text, the file is not refused and holds a program, and the program completes (`Imports`).
Until then nothing of the importer is touched, since the program works apart from it. What
is left is to take over names, which cannot fail: those that are bound already are left
alone, and the others follow in the order of the imported program, with copies of their
values. The store grows while copies are made, but what the values amount to does not
change, and a copy amounts to what was copied.
-/

set_option autoImplicit false

namespace EplLang

/-! ## Taking over names -/

namespace Bindings

/-- Names with what their values amount to. -/
def view (pairs : List (Text × Value)) (s : Store) : List (Text × Data) :=
  pairs.map fun (n, v) => (n, s.view v)

theorem find?_isNone_iff (n : Text) (b : Bindings) : (b.find? n).isNone ↔ n ∉ b.names := by
  rw [← find?_isSome_iff]
  cases b.find? n <;> simp

/-- A name that is not among some names can be left out of account for them. -/
theorem filter_not_mem_append {x : Text} {pairs : List (Text × Value)}
    (once : x ∉ pairs.map Prod.fst) (outer : List Text) :
    (pairs.filter fun entry => entry.1 ∉ outer ++ [x]) =
      pairs.filter fun entry => entry.1 ∉ outer := by
  refine List.filter_congr fun entry member => decide_eq_decide.mpr ?_
  have there : entry.1 ∈ pairs.map Prod.fst := List.mem_map_of_mem member
  have other : entry.1 ≠ x := fun same => once (same ▸ there)
  simp [other]

end Bindings

section Merge

variable {x : Text} {v : Value} {rest : List (Text × Value)} {m : Machine}

theorem merge_of_mem (old : x ∈ m.bindings.names) :
    Eval.merge ((x, v) :: rest) m = Eval.merge rest m := by
  have found : ¬(m.bindings.find? x).isNone := by
    rw [Bindings.find?_isNone_iff]
    exact not_not_intro old
  rw [Eval.merge, Run.get_bind, if_neg found]

theorem merge_of_not_mem (new : x ∉ m.bindings.names) :
    Eval.merge ((x, v) :: rest) m = Eval.merge rest (m.boundTo x v) := by
  have absent : (m.bindings.find? x).isNone := (Bindings.find?_isNone_iff x _).mpr new
  rw [Eval.merge, Run.get_bind, if_pos absent]
  rfl

end Merge

/-- What is added when names are taken over: those that are not bound, in order, with copies
of their values. `base` is the store in which the values are found. -/
theorem merge_adds {base : Store} (ranked : base.Ranked) {bound : List (Text × Value)}
    (distinct : (bound.map Prod.fst).Nodup) (fits : ∀ entry ∈ bound, entry.2.Fits .any base)
    (m : Machine) (grown : base.Extends m.store) :
    ∃ bindings added store, Eval.merge bound m = .ok () { m with bindings, store } ∧
      bindings.pairs = m.bindings.pairs ++ added ∧
      m.store.Apart store ∧ (∀ entry ∈ added, entry.2.Beyond m.store) ∧
      ∀ s, store.Extends s → Bindings.view added s =
        Bindings.view (bound.filter fun entry => entry.1 ∉ m.bindings.names) base := by
  induction bound generalizing m with
  | nil =>
      exact ⟨m.bindings, [], m.store, rfl, (List.append_nil _).symm, .refl _,
        fun _ member => (List.not_mem_nil member).elim, fun _ _ => rfl⟩
  | cons entry rest ih =>
      obtain ⟨x, v⟩ := entry
      obtain ⟨once, distinct⟩ := List.nodup_cons.mp distinct
      obtain ⟨value, fits⟩ := List.forall_mem_cons.mp fits
      by_cases old : x ∈ m.bindings.names
      · obtain ⟨bindings, added, store, ran, pairs, later, fresh, same⟩ := ih distinct fits m grown
        refine ⟨bindings, added, store, (merge_of_mem old).trans ran, pairs, later, fresh,
          fun s after => ?_⟩
        rw [List.filter_cons_of_neg (by simpa using old)]
        exact same s after
      · have bound : (m.boundTo x v).bindings.pairs =
            m.bindings.pairs ++ [(x, (m.store.copy v).1)] :=
          m.bindings.pairs_set_of_not_mem old _
        have names : (m.boundTo x v).bindings.names = m.bindings.names ++ [x] :=
          (m.bindings.names_set x _).trans (if_neg old)
        have copied := Store.Apart.ofCopy m.store v
        obtain ⟨bindings, added, store, ran, pairs, later, fresh, same⟩ :=
          ih distinct fits (m.boundTo x v) (grown.trans copied.toExtends)
        refine ⟨bindings, (x, (m.store.copy v).1) :: added, store, (merge_of_not_mem old).trans ran,
          ?_, copied.trans later, fun entry member => ?_, fun s after => ?_⟩
        · rw [pairs, bound, List.append_assoc]
          rfl
        · rcases List.mem_cons.mp member with rfl | there
          · exact (Store.Apart.refl m.store).copy_beyond v
          · exact (fresh entry there).mono copied.longer
        · have first : s.view (m.store.copy v).1 = base.view v := calc
            s.view (m.store.copy v).1 = m.store.view v :=
              Store.view_copy (later.toExtends.trans after)
            _ = base.view v := grown.view_of_fits ranked value
          have others := same s after
          rw [names, Bindings.filter_not_mem_append once] at others
          rw [List.filter_cons_of_pos (by simpa using old)]
          simp only [Bindings.view, List.map_cons, first] at others ⊢
          rw [others]

/-! ## The two ways in which an import ends -/

/-- An import of the path that a value gives, in the state `k`, finds a program, and the
program completes in the state `e`. -/
inductive Imports (fuel : Nat) (s : Surroundings) (k : Machine) : Value → Machine → Prop where
  | completed {t source : Text} {body : Block} {site : Nat} {e : Machine} :
      Eval.refusal? s (Path.clean t) = none → s.files (Path.clean t) = some source →
      parseSource k.site source = .ok (body, site) →
      Block.run fuel (s.entering (Path.clean t)) body { k with site }.importing = .ok () e →
      Imports fuel s k (.text t) e

/-- The state in which the program completes is the last one of a run in a new frame. -/
theorem Imports.last {fuel : Nat} {s : Surroundings} {k e : Machine} {v : Value}
    (imports : Imports fuel s k v e) :
    ∃ t body site, e = (Block.run fuel t body).last { k with site }.importing := by
  obtain ⟨_, _, _, ran⟩ := imports
  exact ⟨_, _, _, (Run.last_of_ok ran).symm⟩

section Ends

variable {fuel : Nat} {s : Surroundings} {path : Node} {v : Value} {m k : Machine}
  (evaluated : (calls fuel s).eval path m = .ok v k) (line : Int)
include evaluated

/-- After the program the frame of the importer is back, and names are taken over. -/
theorem exec_of_imports {e : Machine} (imports : Imports fuel s k v e) :
    (calls (fuel + 1) s).exec ⟨line, .load path⟩ m =
      Eval.merge e.bindings.pairs (k.resuming e) := by
  obtain ⟨allowed, file, parsed, ran⟩ := imports
  show Eval.importFile s (calls fuel s) (calls fuel) path m = _
  rw [Eval.importFile, Run.bind_of_ok evaluated]
  simp only [Value.text, allowed, file]
  exact (Run.bind_of_ok (load_of_parsed parsed)).trans (Run.bind_of_ok (inNewFrame_of_ok ran))

/-- An import that fails has done nothing, or has run a program that failed. -/
theorem exec_of_not_imports (never : ∀ e, ¬Imports fuel s k v e) :
    ∃ stop n, (calls (fuel + 1) s).exec ⟨line, .load path⟩ m = .error stop n ∧
      (n = k ∨ ∃ t body site,
        n = k.resuming ((Block.run fuel t body).last { k with site }.importing)) := by
  show ∃ stop n, Eval.importFile s (calls fuel s) (calls fuel) path m = .error stop n ∧ _
  rw [Eval.importFile, Run.bind_of_ok evaluated]
  split
  · rename_i t
    dsimp only
    cases allowed : Eval.refusal? s (Path.clean t) with
    | some cause => exact ⟨_, _, rfl, .inl rfl⟩
    | none =>
        cases file : s.files (Path.clean t) with
        | none => exact ⟨_, _, rfl, .inl rfl⟩
        | some source =>
            cases parsed : parseSource k.site source with
            | error stop =>
                have failed : Eval.load source k = .error stop k := by
                  rw [Eval.load, Run.get_bind, parsed]
                  rfl
                exact ⟨_, _, Run.bind_of_error failed, .inl rfl⟩
            | ok program =>
                obtain ⟨body, site⟩ := program
                dsimp only
                rw [Run.bind_of_ok (load_of_parsed parsed)]
                cases ran : Block.run fuel (s.entering (Path.clean t)) body
                    { k with site }.importing with
                | ok _ e => exact absurd (.completed allowed file parsed ran) (never e)
                | error stop e =>
                    rw [← Run.last_of_error ran] at ran
                    exact ⟨_, _, Run.bind_of_error (inNewFrame_of_error ran), .inr ⟨_, _, _, rfl⟩⟩
  · exact ⟨_, _, rfl, .inl rfl⟩

end Ends

/-! ## Imports are additive and atomic -/

/-- What a machine holds is the same in another one, container by container, and amounts
to the same. -/
structure Machine.Intact (k n : Machine) : Prop where
  store : k.store.Extends n.store
  view {v : Value} : k.Holds v → n.store.view v = k.store.view v

theorem Machine.Intact.of_extends {k n : Machine} (fits : k.Fits .any) (ranked : k.store.Ranked)
    (later : k.store.Extends n.store) : k.Intact n where
  store := later
  view holds := later.view_of_fits ranked ((holding_laws Grammar.any_laws).held fits holds)

/-- **Imports are additive and atomic.** Let the path of an import be evaluated in a
reachable state, and `k` be the state after that. If the path names a program that may be
imported and completes, in a state `e`, the import succeeds: to the names of `k` it adds
those of `e` that are not among them, in their order, with copies that amount to the same
as their values and share no container with them, and changes nothing else in the frame. In
any other case it fails and the frame is the one of `k`. Either way everything that was
held is intact. -/
theorem import_additive {m k : Machine} (reachable : Reachable m) {fuel : Nat} {s : Surroundings}
    {path : Node} {v : Value} (evaluated : (calls fuel s).eval path m = .ok v k) (line : Int) :
    (∀ e, Imports fuel s k v e → ∃ n added,
      (calls (fuel + 1) s).exec ⟨line, .load path⟩ m = .ok () n ∧
      n.toFrame = { k.toFrame with bindings := n.bindings } ∧
      n.bindings.pairs = k.bindings.pairs ++ added ∧
      Bindings.view added n.store =
        Bindings.view (e.bindings.pairs.filter fun entry => entry.1 ∉ k.bindings.names) e.store ∧
      (∀ entry ∈ added, entry.2.Beyond e.store) ∧ e.store.Apart n.store ∧ k.Intact n) ∧
    ((∀ e, ¬Imports fuel s k v e) → ∃ stop n,
      (calls (fuel + 1) s).exec ⟨line, .load path⟩ m = .error stop n ∧ n.toFrame = k.toFrame ∧
      k.Intact n) := by
  have state : k.Apart {} := ((Discipline.eval_follows (apart_laws {}) (apart_admits {} s.files)
    reachable.apart fun _ _ _ _ => trivial).of_ran evaluated).1.1
  have ends (t : Surroundings) (body : Block) (site : Nat) :
      ((Block.run fuel t body).last { k with site }.importing).Apart k.store :=
    run_apart (m := { k with site }) (state.fits.same rfl rfl rfl rfl) state.ranked fuel t body
  refine ⟨fun e imports => ?_, fun never => ?_⟩
  · obtain ⟨t, body, site, last⟩ := imports.last
    have apart : e.Apart k.store := last ▸ ends t body site
    have distinct : (e.bindings.pairs.map Prod.fst).Nodup :=
      e.bindings.map_fst_pairs ▸ e.bindings.names_nodup
    obtain ⟨bindings, added, store, ran, pairs, later, fresh, same⟩ := merge_adds apart.ranked
      distinct (fun entry member => apart.fits.bound (e.bindings.mem_pairs.mp member))
      (k.resuming e) (.refl _)
    exact ⟨_, added, (exec_of_imports evaluated line imports).trans ran, rfl, pairs,
      same store (.refl _), fresh, later,
      .of_extends state.fits state.ranked (apart.store.toExtends.trans later.toExtends)⟩
  · obtain ⟨stop, n, failed, outcome⟩ := exec_of_not_imports evaluated line never
    refine ⟨stop, n, failed, ?_⟩
    rcases outcome with rfl | ⟨t, body, site, rfl⟩
    · exact ⟨rfl, .of_extends state.fits state.ranked (.refl _)⟩
    · exact ⟨rfl, .of_extends state.fits state.ranked (ends t body site).store.toExtends⟩

/-- A file that binds a name of the importer anew and another one, which alone is taken
over; and a file that fails at a name of the importer. -/
theorem import_additive_rebound_name :
    let s : Surroundings :=
      { files := fun p =>
          if p = "lib" then some "a = \"new\"\nb = [x = a]"
          else if p = "bad" then some "b = []\nc = a" else none }
    let m := (Block.run 9 {} [⟨1, .bind "a" (.container .object ⟨[]⟩)⟩]).last (Machine.start [])
    (∃ n added, (calls 9 s).exec ⟨2, .load (.text "lib")⟩ m = .ok () n ∧
      n.bindings.pairs = m.bindings.pairs ++ added ∧ Bindings.view added n.store =
        [(("b" : Text), .container .object ⟨[(.string "x", some (.scalar (.string "new")))]⟩)]) ∧
    ∃ stop n, (calls 9 s).exec ⟨2, .load (.text "bad")⟩ m = .error stop n ∧
      n.toFrame = m.toFrame := by
  intro s m
  have reachable : Reachable m := .run (.start []) (.last 9 {} _ _)
  have lib : parseSource 7 "a = \"new\"\nb = [x = a]" =
      .ok ([⟨1, .newLine⟩, ⟨1, .bind "a" (.text "new")⟩, ⟨2, .newLine⟩,
        ⟨2, .bind "b" (.container .object ⟨[(.string "x", some (.name "a"))]⟩)⟩], 7) := by cbv
  have bad : parseSource 7 "b = []\nc = a" =
      .ok ([⟨1, .newLine⟩, ⟨1, .bind "b" (.container .array ⟨[]⟩)⟩, ⟨2, .newLine⟩,
        ⟨2, .bind "c" (.name "a")⟩], 7) := by cbv
  have evaluated (p : Text) : (calls 8 s).eval (.text p) m = .ok (.text p) m := rfl
  constructor
  · let body : Block := [⟨1, .newLine⟩, ⟨1, .bind "a" (.text "new")⟩, ⟨2, .newLine⟩,
      ⟨2, .bind "b" (.container .object ⟨[(.string "x", some (.name "a"))]⟩)⟩]
    let e := (Block.run 8 (s.entering (Path.clean "lib")) body).last { m with site := 7 }.importing
    have completes : Block.run 8 (s.entering (Path.clean "lib")) body { m with site := 7 }.importing =
        .ok () e := rfl
    have imports : Imports 8 s m (.text "lib") e := .completed rfl rfl lib completes
    have view : Bindings.view (e.bindings.pairs.filter fun entry => entry.1 ∉ m.bindings.names)
        e.store =
          [(("b" : Text), .container .object ⟨[(.string "x", some (.scalar (.string "new")))]⟩)] := by
      simp only [e, body, m, s]
      rfl
    obtain ⟨n, added, ran, _, pairs, same, _⟩ := (import_additive reachable (evaluated "lib") 2).1 e
      imports
    exact ⟨n, added, ran, pairs, same.trans view⟩
  · obtain ⟨stop, n, ran, frame, _⟩ := (import_additive reachable (evaluated "bad") 2).2 <| by
      rintro e ⟨_, file, parsed, ran⟩
      cases Option.some.inj file
      cases bad.symm.trans parsed
      cases ran
    exact ⟨stop, n, ran, frame⟩

end EplLang
