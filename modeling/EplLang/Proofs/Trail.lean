import EplLang.Proofs.Moment
import Mathlib.Data.Set.Card

/-!
# The trail of imports

An imported file is evaluated by an interpreter of its own, whose surroundings are
those of the importer with one more file in the chain. So at each moment of a run there
is one interpreter at work, and its trail lists the files whose evaluation is in
progress: the program's own, then the imported ones, each imported from the one before.

To speak of the interpreter at work, the watch of `EplLang.Proofs.Moment` is extended
to surroundings: `Visits` says that a run has something start or end in certain
surroundings and in a certain state. Surroundings only ever come from others by an import
that is not refused (`Within`), and this is all that is needed: whatever such an import
keeps, holds at every moment of a run.
-/

set_option autoImplicit false

namespace EplLang

/-! ## The interpreter at work -/

/-- The evaluator with a watch on every expression and statement and on the
surroundings in which it is carried out. -/
noncomputable def tracedCalls (wanted : Surroundings → Machine → Prop) (alarm : Stop) :
    Nat → Surroundings → Calls
  | 0, s =>
    { eval := fun _ => Run.watched (wanted s) alarm (throw .outOfFuel)
      exec := fun _ => Run.watched (wanted s) alarm (throw .outOfFuel) }
  | fuel + 1, s =>
    let inner := tracedCalls wanted alarm fuel
    { eval := fun n => Run.watched (wanted s) alarm (Eval.expression s (inner s) n)
      exec := fun st => Run.watched (wanted s) alarm (Eval.statement s (inner s) inner fuel st) }

/-- A run of a program under watch. -/
noncomputable def Block.runTraced (wanted : Surroundings → Machine → Prop) (alarm : Stop)
    (fuel : Nat) (s : Surroundings) (body : Block) : Run Unit :=
  Run.watched (wanted s) alarm (Eval.block (tracedCalls wanted alarm fuel s) body)

/-- In a run of a program in the surroundings `s` from the state `m`, the interpreter in
the surroundings `t` is at work in the state `n`. -/
def Visits (fuel : Nat) (s : Surroundings) (body : Block) (m : Machine) (t : Surroundings)
    (n : Machine) : Prop :=
  ∃ alarm, Block.runTraced (fun t' k => ¬(t' = t ∧ k = n)) alarm fuel s body m ≠
    Block.run fuel s body m

/-- The surroundings of the interpreters that a run can start: its own, and those of the
files that may be imported in them. -/
inductive Surroundings.Within (s : Surroundings) : Surroundings → Prop where
  | self : Within s s
  | entered {t : Surroundings} {path source : Text} : Within s t →
      Eval.refusal? t path = none → t.files path = some source → Within s (t.entering path)

theorem Run.watched_of_always {α : Type} {wanted : Machine → Prop} (always : ∀ k, wanted k)
    (alarm : Stop) (x : Run α) : Run.watched wanted alarm x = x := by
  funext m
  unfold Run.watched
  rw [if_pos (always _), if_pos (always _)]

/-- A statement consults the interpreters of imported files only where the import is not
refused and there is a file. -/
theorem statement_congr {s : Surroundings} {c : Calls} {inside inside' : Surroundings → Calls}
    (same : ∀ path source, Eval.refusal? s path = none → s.files path = some source →
      inside (s.entering path) = inside' (s.entering path)) (bound : Nat) (st : Stmt) :
    Eval.statement s c inside bound st = Eval.statement s c inside' bound st := by
  obtain ⟨line, node⟩ := st
  cases node with
  | load path =>
      simp only [Eval.statement, Eval.importFile]
      congr 1
      funext v
      split
      · split
        · rfl
        · rename_i allowed
          split
          · rfl
          · rename_i source file
            rw [same _ source allowed file]
      · rfl
  | _ => rfl

/-- A watch that wants everything within some surroundings sees nothing of a run in
them. -/
theorem tracedCalls_eq {s : Surroundings} {wanted : Surroundings → Machine → Prop}
    (always : ∀ t, s.Within t → ∀ k, wanted t k) (alarm : Stop) (fuel : Nat) :
    ∀ t, s.Within t → tracedCalls wanted alarm fuel t = calls fuel t := by
  induction fuel with
  | zero =>
      intro t within
      simp only [tracedCalls, calls, Run.watched_of_always (always t within)]
  | succ fuel ih =>
      intro t within
      have statements (st : Stmt) :
          Eval.statement t (calls fuel t) (tracedCalls wanted alarm fuel) fuel st =
            Eval.statement t (calls fuel t) (calls fuel) fuel st :=
        statement_congr (fun path source allowed file => ih _ (within.entered allowed file)) fuel st
      simp only [tracedCalls, calls, Run.watched_of_always (always t within), ih t within,
        statements]

theorem Visits.within {fuel : Nat} {s t : Surroundings} {body : Block} {m n : Machine}
    (visits : Visits fuel s body m t n) : s.Within t := by
  refine Classical.byContradiction fun outside => ?_
  obtain ⟨alarm, differs⟩ := visits
  have always : ∀ t', s.Within t' → ∀ k, ¬(t' = t ∧ k = n) := by
    rintro t' within k ⟨rfl, _⟩
    exact outside within
  refine differs ?_
  unfold Block.runTraced
  rw [Run.watched_of_always (always s .self), tracedCalls_eq always alarm fuel s .self]
  rfl

section Imported

variable {fuel : Nat} {s : Surroundings} {m : Machine} {line : Int} {p source : Text}
  {rest more : Block} {st : Stmt} {site : Nat} (free : m.pending = false)
  (allowed : Eval.refusal? s (Path.clean p) = none) (file : s.files (Path.clean p) = some source)
  (parsed : parseSource m.site source = .ok (st :: more, site))
include free allowed file parsed

/-- A watch that is silent in the importer raises its alarm before the first statement of
the imported program. -/
theorem runTraced_imported {wanted : Surroundings → Machine → Prop} (silent : ∀ k, wanted s k)
    (loud : ¬wanted (s.entering (Path.clean p)) { m with site }.importing) (alarm : Stop) :
    ∃ k, Block.runTraced wanted alarm (fuel + 2) s (⟨line, .load (.text p)⟩ :: rest) m =
      .error alarm k := by
  have alarmed : Eval.block (tracedCalls wanted alarm (fuel + 1) (s.entering (Path.clean p)))
      (st :: more) { m with site }.importing = .error alarm { m with site }.importing := by
    unfold Eval.block
    rw [Run.get_bind]
    refine Run.bind_of_error ?_
    simp only [tracedCalls, Run.watched]
    rw [if_neg loud]
  have evaluated : (tracedCalls wanted alarm (fuel + 1) s).eval (.text p) m =
      .ok (.scalar (.string p)) m := by
    simp only [tracedCalls, Run.watched_of_always silent]
    rfl
  have executed : (tracedCalls wanted alarm (fuel + 2) s).exec ⟨line, .load (.text p)⟩ =
      Eval.importFile s (tracedCalls wanted alarm (fuel + 1) s)
        (tracedCalls wanted alarm (fuel + 1)) (.text p) :=
    Run.watched_of_always silent alarm _
  unfold Block.runTraced Eval.block
  rw [Run.watched_of_always silent, Run.get_bind]
  simp only [free, executed, Eval.importFile]
  rw [if_neg Bool.false_ne_true]
  refine ⟨{ m with site }.resuming { m with site }.importing, Run.bind_of_error ?_⟩
  rw [Run.bind_of_ok evaluated]
  simp only [allowed, file]
  rw [Run.bind_of_ok (load_of_parsed parsed)]
  exact Run.bind_of_error (inNewFrame_of_error alarmed)

/-- The interpreter of an imported file is at work when the file is evaluated. -/
theorem visits_imported :
    Visits (fuel + 2) s (⟨line, .load (.text p)⟩ :: rest) m (s.entering (Path.clean p))
      { m with site }.importing := by
  obtain ⟨alarm, differs⟩ := Meets.exists_alarm
    (Block.run (fuel + 2) s (⟨line, .load (.text p)⟩ :: rest)) m
  have elsewhere : s ≠ s.entering (Path.clean p) := by
    intro same
    have longer := congrArg (fun t => t.chain.length) same
    simp [Surroundings.entering] at longer
  obtain ⟨k, alarmed⟩ : ∃ k, Block.runTraced
      (fun t' k => ¬(t' = s.entering (Path.clean p) ∧ k = { m with site }.importing)) alarm
      (fuel + 2) s (⟨line, .load (.text p)⟩ :: rest) m = .error alarm k :=
    runTraced_imported free allowed file parsed (fun k both => elsewhere both.1)
      (fun other => other ⟨rfl, rfl⟩) alarm
  exact ⟨alarm, fun same => differs k (alarmed.symm.trans same)⟩

end Imported

/-! ## Trails without repetition -/

namespace Surroundings

/-- No file is on the trail twice, and no more imports are nested than allowed. -/
structure Straight (t : Surroundings) : Prop where
  nodup : t.trail.Nodup
  depth : t.chain.length ≤ t.maxDepth

theorem Straight.outermost {s : Surroundings} (outermost : s.chain = []) : s.Straight := by
  refine ⟨?_, by simp [outermost]⟩
  unfold trail
  rw [outermost, List.append_nil]
  cases s.source <;> simp

theorem trail_entering (t : Surroundings) (path : Text) :
    (t.entering path).trail = t.trail ++ [path] :=
  (List.append_assoc _ _ _).symm

/-- An import is refused exactly when the file is on the trail or the limit is
reached. -/
theorem refusal?_eq_none_iff {t : Surroundings} {path : Text} :
    Eval.refusal? t path = none ↔ path ∉ t.trail ∧ t.chain.length < t.maxDepth := by
  unfold Eval.refusal?
  split
  · rename_i member
    simp_all
  · split <;> simp_all

theorem Straight.entering {t : Surroundings} (straight : t.Straight) {path : Text}
    (allowed : Eval.refusal? t path = none) : (t.entering path).Straight := by
  obtain ⟨absent, below⟩ := refusal?_eq_none_iff.mp allowed
  refine ⟨?_, ?_⟩
  · rw [trail_entering, ← List.concat_eq_append, List.nodup_concat]
    exact ⟨absent, straight.nodup⟩
  · simpa [Surroundings.entering] using below

namespace Within

variable {s t : Surroundings}

theorem straight (start : s.Straight) (within : s.Within t) : t.Straight := by
  induction within with
  | self => exact start
  | entered _ allowed _ ih => exact ih.entering allowed

/-- Files, limit and program stay the same; only the chain grows. -/
theorem entering_only (within : s.Within t) : t = { s with chain := t.chain } := by
  induction within with
  | self => rfl
  | entered _ _ _ ih => rw [ih]; rfl

/-- There is a file for every import in progress. -/
theorem file_of_mem (start : s.chain = []) (within : s.Within t) {path : Text}
    (member : path ∈ t.chain) : (s.files path).isSome := by
  induction within with
  | self =>
      rw [start] at member
      cases member
  | @entered t last source inner _ file ih =>
      rcases List.mem_append.mp member with earlier | here
      · exact ih earlier
      · rw [List.mem_singleton.mp here, ← congrArg Surroundings.files inner.entering_only, file]
        rfl

/-- No more imports are in progress than there are files. -/
theorem length_le_encard (start : s.chain = []) (straight : t.Straight) (within : s.Within t) :
    (t.chain.length : ℕ∞) ≤ {path | (s.files path).isSome}.encard := by
  have nodup : t.chain.Nodup := straight.nodup.of_append_right
  calc (t.chain.length : ℕ∞) = {path | path ∈ t.chain}.encard := by
        rw [← List.coe_toFinset, Set.encard_coe_eq_coe_finsetCard,
          List.toFinset_card_of_nodup nodup]
    _ ≤ {path | (s.files path).isSome}.encard :=
        Set.encard_le_encard fun path member => within.file_of_mem start member

end Within

end Surroundings

/-- An import that is refused fails without a look at the files. -/
theorem importFile_of_refused {t : Surroundings} {c : Calls} (inside : Surroundings → Calls)
    {path : Node} {n k : Machine} {p : Text} {cause : Cause}
    (evaluated : c.eval path n = .ok (.scalar (.string p)) k)
    (refused : Eval.refusal? t (Path.clean p) = some cause) (files : Text → Option Text) :
    Eval.importFile { t with files } c inside path n = .error (.fault ⟨k.line, cause⟩) k := by
  have refused' : Eval.refusal? { t with files } (Path.clean p) = some cause := refused
  unfold Eval.importFile
  rw [Run.bind_of_ok evaluated]
  simp only [refused']
  rfl

theorem faultClass_of_refused {t : Surroundings} {path : Text} {cause : Cause}
    (refused : Eval.refusal? t path = some cause) : cause.faultClass = .load := by
  unfold Eval.refusal? at refused
  split at refused
  · cases refused
    rfl
  · split at refused
    · cases refused
      rfl
    · cases refused

/-- **The trail of imports stays straight.** At every moment of a run the files under
evaluation are distinct, and no more imports are nested than the limit allows or than
there are files. An import that would break this, and no other, is refused: it is an
error of the import, whatever files there are. -/
theorem import_trail {fuel : Nat} {s t : Surroundings} {body : Block} {m n : Machine}
    (outermost : s.chain = []) (visits : Visits fuel s body m t n) :
    t = { s with chain := t.chain } ∧ t.trail.Nodup ∧
    (t.chain.length : ℕ∞) ≤ min (s.maxDepth : ℕ∞) {path | (s.files path).isSome}.encard ∧
    (∀ p, Eval.refusal? t p = none ↔ p ∉ t.trail ∧ t.chain.length < s.maxDepth) ∧
    ∀ (fuel : Nat) (line : Int) (path : Node) (p : Text) (k : Machine),
      (calls fuel t).eval path n = .ok (.scalar (.string p)) k →
      ¬(Path.clean p ∉ t.trail ∧ t.chain.length < s.maxDepth) →
      ∃ cause : Cause, cause.faultClass = .load ∧
        (calls (fuel + 1) t).exec ⟨line, .load path⟩ n = .error (.fault ⟨k.line, cause⟩) k ∧
        ∀ files, Eval.statement { t with files } (calls fuel t) (calls fuel) fuel
          ⟨line, .load path⟩ n = .error (.fault ⟨k.line, cause⟩) k := by
  have within := visits.within
  have same := within.entering_only
  have limit : t.maxDepth = s.maxDepth := by rw [same]
  have straight : t.Straight := within.straight (.outermost outermost)
  refine ⟨same, straight.nodup, ?_, fun p => ?_, fun fuel line path p k evaluated broken => ?_⟩
  · refine le_min ?_ (within.length_le_encard outermost straight)
    exact_mod_cast limit ▸ straight.depth
  · rw [← limit]
    exact Surroundings.refusal?_eq_none_iff
  · rw [← limit, ← Surroundings.refusal?_eq_none_iff] at broken
    obtain ⟨cause, refused⟩ := Option.ne_none_iff_exists'.mp broken
    have fails := importFile_of_refused (calls fuel) evaluated refused
    exact ⟨cause, faultClass_of_refused refused, fails t.files, fails⟩

/-- A file that imports itself by another spelling of its path: when it is evaluated it
is on the trail, and its import of itself is a cycle. -/
theorem import_trail_of_own_file :
    let s : Surroundings :=
      { files := fun p => if p = "a" then some "import \"b/../a\"" else none, maxDepth := 3 }
    let body : Block := [⟨1, .load (.text "./a")⟩]
    let n : Machine := { Machine.start [] with site := 7 }.importing
    Visits 9 s body (Machine.start []) (s.entering "a") n ∧ (s.entering "a").trail.Nodup ∧
      ∃ cause : Cause, cause.faultClass = .load ∧
        (calls 9 (s.entering "a")).exec ⟨1, .load (.text "b/../a")⟩ n =
          .error (.fault ⟨1, cause⟩) n := by
  intro s body n
  have parsed : parseSource 7 "import \"b/../a\"" =
      .ok ([⟨1, .newLine⟩, ⟨1, .load (.text "b/../a")⟩], 7) := by cbv
  have visits : Visits 9 s body (Machine.start []) (s.entering "a") n :=
    visits_imported (p := "./a") rfl rfl rfl parsed
  obtain ⟨_, nodup, _, _, refused⟩ := import_trail rfl visits
  obtain ⟨cause, load, fails, _⟩ := refused 8 1 (.text "b/../a") "b/../a" n rfl (by decide)
  exact ⟨visits, nodup, cause, load, fails⟩

end EplLang
