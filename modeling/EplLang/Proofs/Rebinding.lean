import EplLang.Proofs.Reach
import EplLang.Proofs.Scope
import EplLang.Proofs.Sharing

/-!
# Which names a statement can rebind

Functions see the bindings of their callers, and a parameter is bound among them. So a
call may rebind any name of the caller that occurs in the function, or in a function that
this one can get at, and so on. An import goes further: it brings functions that stand in
a file, and they can be called where the file was imported. But nothing else can happen.
The nodes that a statement can carry out all occur in the statement itself, in a function
in reach of the bindings and the receiver or, if one of these nodes imports, in a file
(`Machine.Mentions`). A name that none of these nodes binds is afterwards bound as it was,
however the statement ends.

The frame is a relation between the two ends of a piece of work (`Machine.Framed`), so
that an imported program has one too, in bindings of its own. What it hands over are the
names that are not bound yet, and those of the built-in functions always are. The values on
their way out of older calls need no care: a call takes only what was returned since it
started.
-/

set_option autoImplicit false

namespace EplLang

/-! ## Nodes that occur in a node -/

namespace Node

/-- Something holds of a node and of all nodes that occur in it. -/
def All (P : Node → Prop) (whole : Node) : Prop := ∀ part, Occurs part whole → P part

/-- The nodes that a node is made of, one level down. -/
def children : Node → List Node
  | .function _ _ body => body.map Stmt.node
  | n => n.exprs ++ n.blocks.flatten.map Stmt.node

theorem Occurs.of_child {part child whole : Node} (member : child ∈ whole.children)
    (occurs : Occurs part child) : Occurs part whole := by
  cases whole with
  | function site params body =>
      obtain ⟨st, inside, rfl⟩ := List.mem_map.mp member
      exact .function inside occurs
  | _ =>
      rcases List.mem_append.mp member with inside | inside
      · exact .expr inside occurs
      · obtain ⟨st, flat, rfl⟩ := List.mem_map.mp inside
        obtain ⟨body, block, member⟩ := List.mem_flatten.mp flat
        exact .block block member occurs

/-- What holds of all nodes in a node holds of it and of all nodes in its children. -/
theorem all_iff {P : Node → Prop} {whole : Node} :
    whole.All P ↔ P whole ∧ whole.children.Forall (All P) := by
  rw [List.forall_iff_forall_mem]
  constructor
  · intro all
    exact ⟨all whole .self, fun child member part occurs => all part (occurs.of_child member)⟩
  · rintro ⟨own, children⟩ part occurs
    cases occurs with
    | self => exact own
    | @expr inner _ inside occurs =>
        refine children inner ?_ part occurs
        cases whole with
        | function => cases inside
        | _ => exact List.mem_append_left _ inside
    | @block body st _ inside member occurs =>
        refine children st.node ?_ part occurs
        cases whole with
        | function => cases inside
        | _ =>
            have flat := List.mem_flatten.mpr ⟨body, inside, member⟩
            exact List.mem_append_right _ (List.mem_map_of_mem flat)
    | @function site params body st member occurs =>
        exact children st.node (List.mem_map_of_mem member) part occurs

end Node

/-- The grammar of programs in which all nodes are as wanted. -/
def Grammar.within (P : Node → Prop) : Grammar where
  expr := Node.All P
  stmt st := st.node.All P
  stop _ := True

/-! ## The discipline -/

/-- A name that some node binds. -/
def Brought (P : Node → Prop) (name : Text) : Prop := ∃ part, P part ∧ name ∈ part.binds

/-- Among some nodes imports bring nothing new: if one of the nodes is an import, the nodes
of every file are among them, and so are those of the functions that an imported program
starts with. -/
structure ImportClosed (files : Text → Option Text) (P : Node → Prop) : Prop where
  program {route : Node} {path source : Text} {site next : Nat} {body : Block} {st : Stmt} :
    P (.load route) → files path = some source → parseSource site source = .ok (body, next) →
      st ∈ body → st.node.All P
  native {route : Node} (site : Nat) (operation : Native) :
    P (.load route) → Node.All P (.function site operation.params operation.body)

section Framing

variable (P : Node → Prop)

/-- A machine gets at some nodes only, and has all built-in functions bound to something.
If none of the nodes binds the name of a built-in function, then it is still bound to that
function if it was so in a given state. Only an import leads to other built-in functions. -/
structure Machine.Within (m base : Machine) : Prop where
  named {v : Value} : m.toFrame.Names v → v.Sound (.within P) m.store
  builtins : Bindings.builtinNames ⊆ m.bindings.names
  original {name : Text} : ¬Brought P name →
    base.bindings.find? name = (Native.bindings base.builtinSite).find? name →
      m.bindings.find? name = (Native.bindings m.builtinSite).find? name
  site : (∀ route, ¬P (.load route)) → m.builtinSite = base.builtinSite

/-- What some nodes can do to a state: they rebind the names that they bind, leave values
that get at no other nodes, and change a container only if one of them assigns into one. -/
structure Machine.Framed (m n : Machine) : Prop where
  stays (v : Value) : v.Sound (.within P) m.store → v.Sound (.within P) n.store
  kept : (∀ target path value, ¬P (.assign target path value)) → m.store.Extends n.store
  returned : ∃ newer, n.returns = newer ++ m.returns ∧ ∀ v ∈ newer, v.Sound (.within P) n.store
  same {name : Text} : ¬Brought P name → n.bindings.find? name = m.bindings.find? name
  builtins : Bindings.builtinNames ⊆ m.bindings.names → Bindings.builtinNames ⊆ n.bindings.names
  site : n.builtinSite = m.builtinSite

/-- Work gets at some nodes only, and does what they can do. -/
def framing (base : Machine) : Discipline where
  state m := m.Within P base
  value s v := v.Sound (.within P) s
  expr := (Grammar.within P).expr
  stmt := (Grammar.within P).stmt
  stop _ := True
  moves _ := Machine.Framed P
  name := Brought P

variable {P} {base m n : Machine}

namespace Machine.Framed

theorem refl (m : Machine) : m.Framed P m where
  stays _ sound := sound
  kept _ := .refl _
  returned := ⟨[], rfl, by simp⟩
  same _ := rfl
  builtins bound := bound
  site := rfl

theorem trans {k : Machine} (first : m.Framed P n) (second : n.Framed P k) : m.Framed P k where
  stays v sound := second.stays v (first.stays v sound)
  kept none := (first.kept none).trans (second.kept none)
  returned := by
    obtain ⟨older, before, early⟩ := first.returned
    obtain ⟨newer, now, late⟩ := second.returned
    refine ⟨newer ++ older, by rw [now, before, List.append_assoc], fun v member => ?_⟩
    rcases List.mem_append.mp member with inside | inside
    · exact late v inside
    · exact second.stays v (early v inside)
  same absent := (second.same absent).trans (first.same absent)
  builtins bound := second.builtins (first.builtins bound)
  site := second.site.trans first.site

/-- Work that leaves the bindings and what is on its way out of calls. -/
theorem of_store (bindings : n.bindings = m.bindings) (returns : n.returns = m.returns)
    (site : n.builtinSite = m.builtinSite)
    (stays : ∀ v : Value, v.Sound (.within P) m.store → v.Sound (.within P) n.store)
    (kept : (∀ target path value, ¬P (.assign target path value)) → m.store.Extends n.store) :
    m.Framed P n where
  stays := stays
  kept := kept
  returned := ⟨[], returns, by simp⟩
  same _ := congrArg (Bindings.find? · _) bindings
  builtins bound := by rwa [bindings]
  site := site

/-- Work that makes containers and binds a name. -/
theorem of_set {name : Text} (brought : Brought P name) (v : Value) {s : Store}
    (later : m.store.Extends s) :
    m.Framed P { m with store := s, bindings := m.bindings.set name v } where
  stays _ sound := sound.mono later
  kept _ := later
  returned := ⟨[], rfl, by simp⟩
  same {other} absent := by
    have differ : other ≠ name := by
      rintro rfl
      exact absent brought
    exact m.bindings.find?_set_of_ne differ v
  builtins bound other member := by
    have names := m.bindings.names_set name v
    split at names
    · exact names ▸ bound member
    · exact names ▸ List.mem_append_left _ (bound member)
  site := rfl

/-- Closing a region: the names that are not brought were all there when it started. -/
theorem closed (framed : m.Framed P n) : m.Framed P (n.closedTo m.bindings.names) where
  stays := framed.stays
  kept := framed.kept
  returned := framed.returned
  same {name} absent := by
    refine (Bindings.find?_close ..).trans ?_
    split
    · exact framed.same absent
    · rename_i dropped
      refine (Option.not_isSome_iff_eq_none.mp fun found => dropped (.inl ?_)).symm
      exact (m.bindings.find?_isSome_iff name).mp found
  builtins bound name member := by
    refine (Bindings.find?_isSome_iff _ name).mp ?_
    have still := (n.bindings.find?_isSome_iff name).mpr (framed.builtins bound member)
    have kept := n.bindings.find?_close m.bindings.names name
    rw [if_pos (.inr member)] at kept
    exact kept ▸ still
  site := framed.site

theorem giving (framed : m.Framed P n) {v : Value} (value : v.Sound (.within P) n.store) :
    m.Framed P { n with returns := v :: n.returns } := by
  obtain ⟨newer, now, values⟩ := framed.returned
  exact { framed with
    returned := ⟨v :: newer, congrArg (v :: ·) now, List.forall_mem_cons.mpr ⟨value, values⟩⟩ }

/-- A call takes only what was returned after it started, and so nothing that was on its
way before. -/
theorem taking (framed : m.Framed P n) {v : Value} {k : Machine}
    (took : Eval.takeReturn m.returns.length n = .ok v k) :
    m.Framed P k ∧ v.Sound (.within P) k.store ∧ k = { n with returns := k.returns } := by
  obtain ⟨newer, now, values⟩ := framed.returned
  by_cases none : n.returns.length ≤ m.returns.length
  · rw [takeReturn_none none] at took
    cases took
    exact ⟨framed, .scalar _, rfl⟩
  · cases newer with
    | nil =>
        rw [now] at none
        simp at none
    | cons w rest =>
        rw [takeReturn_some now (by omega)] at took
        cases took
        obtain ⟨value, others⟩ := List.forall_mem_cons.mp values
        exact ⟨{ framed with returned := ⟨rest, rfl, others⟩ }, value, rfl⟩

end Machine.Framed

namespace Machine.Within

/-- After framed work it remains to look at the values that can be named. -/
theorem framed (state : m.Within P base) (framed : m.Framed P n)
    (named : ∀ {v : Value}, n.toFrame.Names v → v.Sound (.within P) n.store) :
    n.Within P base where
  named := named
  builtins := framed.builtins state.builtins
  original absent started := by
    rw [framed.same absent, framed.site]
    exact state.original absent started
  site none := framed.site.trans (state.site none)

/-- Framed work that names no other values than before. -/
theorem leads {g : Grain} (state : m.Within P base) (framed : m.Framed P n)
    (names : ∀ {v : Value}, n.toFrame.Names v → m.toFrame.Names v) :
    (framing P base).Leads g m n :=
  ⟨state.framed framed fun named => framed.stays _ (state.named (names named)), framed⟩

/-- Work that leaves the bindings, the receiver and what is on its way out of calls. -/
theorem unseen {g : Grain} (state : m.Within P base) (bindings : n.bindings = m.bindings)
    (receiver : n.receiver = m.receiver) (framed : m.Framed P n) :
    (framing P base).Leads g m n := by
  refine state.leads framed fun {v} named => ?_
  cases named with
  | bound member => exact .bound (bindings ▸ member)
  | receiver same => exact .receiver (receiver ▸ same)

/-- Another receiver, and a change of what is not looked at. -/
theorem withReceiver (state : m.Within P base) (bindings : n.bindings = m.bindings)
    (site : n.builtinSite = m.builtinSite) (store : n.store = m.store)
    (receiver : ∀ v, n.receiver = some v → v.Sound (.within P) m.store) : n.Within P base where
  named named := by
    rw [store]
    cases named with
    | bound member => exact state.named (.bound (bindings ▸ member))
    | receiver same => exact receiver _ same
  builtins := bindings ▸ state.builtins
  original absent started := by
    rw [bindings, site]
    exact state.original absent started
  site none := site.trans (state.site none)

end Machine.Within

/-- Work that only makes containers. -/
theorem framing_store {g : Grain} (state : m.Within P base) {s : Store}
    (later : m.store.Extends s) : (framing P base).Leads g m { m with store := s } :=
  state.unseen rfl rfl (.of_store rfl rfl rfl (fun _ sound => sound.mono later) fun _ => later)

/-- Work that changes nothing that is looked at. -/
theorem framing_unseen {g : Grain} (state : m.Within P base) (bindings : n.bindings = m.bindings)
    (receiver : n.receiver = m.receiver) (returns : n.returns = m.returns)
    (site : n.builtinSite = m.builtinSite) (store : n.store = m.store) :
    (framing P base).Leads g m n :=
  state.unseen bindings receiver
    (.of_store bindings returns site (fun _ sound => store ▸ sound) fun _ => store ▸ .refl _)

/-- Binding a name to a value in new containers. -/
theorem framing_set {g : Grain} {name : Text} {v : Value} {s : Store} (brought : Brought P name)
    (state : m.Within P base) (later : m.store.Extends s) (value : v.Sound (.within P) s) :
    (framing P base).Leads g m { m with store := s, bindings := m.bindings.set name v } := by
  have framed := Machine.Framed.of_set brought v later
  refine ⟨state.framed framed fun {w} named => ?_, framed⟩
  cases named with
  | bound member =>
      rcases Bindings.mem_set member with ⟨_, rfl⟩ | old
      · exact value
      · exact (state.named (.bound old)).mono later
  | receiver same => exact (state.named (.receiver same)).mono later

theorem framing_boundEntry {g : Grain} {name : Text} {k : Scalar} {v : Value}
    (brought : Brought P name) (state : m.Within P base) (value : v.Sound (.within P) m.store) :
    (framing P base).Leads g m (m.boundToEntry name k v) := by
  have later := Store.Extends.push (m.copied v).store .object
    (Eval.entryObject k (m.store.copy v).1)
  refine framing_set brought state (.trans (.copy m.store v) later) (.push fun key w member => ?_)
  rcases Eval.mem_values_entryObject ((OrderedMap.mem_values _).mpr ⟨key, member⟩) with rfl | rfl
  · exact .scalar k
  · exact value.copy

/-- Storing a copy of a value in a container. -/
theorem framing_stored {g : Grain} {shape : Shape} {ref : Nat} {k : Scalar} {v : Value}
    (assigns : (framing P base).Assigns) (state : m.Within P base)
    (container : Value.Sound (.within P) m.store (.container shape ref))
    (value : v.Sound (.within P) m.store) :
    (framing P base).Leads g m (m.storedAt ref k v) := by
  obtain ⟨line, target, path, given, allowed⟩ := assigns
  have later := Store.Extends.copy m.store v
  refine state.unseen rfl rfl (.of_store rfl rfl rfl (fun w sound => ?_) fun none => ?_)
  · exact .put (container.mono later) k value.copy (sound.mono later)
  · exact absurd (allowed _ .self) (none _ _ _)

/-- Closing a region. -/
theorem framing_closed {g : Grain} (leads : (framing P base).Leads .statement m n)
    (state : m.Within P base) : (framing P base).Leads g m (n.closedTo m.bindings.names) := by
  have framed := Machine.Framed.closed leads.2
  refine ⟨state.framed framed fun named => ?_, framed⟩
  cases named with
  | bound member => exact leads.1.named (.bound (Bindings.mem_of_mem_close member))
  | receiver same => exact leads.1.named (.receiver same)

/-- The end of a call. -/
theorem framing_returned {k : Machine} {v : Value} (state : m.Within P base)
    (leads : (framing P base).Leads .statement m n)
    (took : Eval.takeReturn m.returns.length n = .ok v k) :
    (framing P base).Leads .expression m ((k.copied v).closedTo m.bindings.names) ∧
      (k.store.copy v).1.Sound (.within P) (k.copied v).store := by
  obtain ⟨taken, value, same⟩ := Machine.Framed.taking leads.2 took
  have named : ∀ {w : Value}, k.toFrame.Names w → w.Sound (.within P) k.store := by
    rw [same]
    rintro w (member | member)
    · exact leads.1.named (.bound member)
    · exact leads.1.named (.receiver member)
  have copied : (framing P base).Leads .statement k (k.copied v) :=
    framing_store (state.framed taken named) (.copy k.store v)
  exact ⟨framing_closed ⟨copied.1, taken.trans copied.2⟩ state, value.copy⟩

/-- An imported program starts with its own built-in functions. -/
theorem framing_importing {files : Text → Option Text} (closed : ImportClosed files P)
    (imports : (framing P base).Imports) : m.importing.Within P base := by
  obtain ⟨line, route, allowed⟩ := imports
  have imported : P (.load route) := allowed _ .self
  constructor
  · intro v named
    cases named with
    | bound member =>
        obtain ⟨⟨operation, i⟩, _, same⟩ := List.mem_map.mp (Bindings.mem_of_mem_ofList member)
        cases same
        exact .function (closed.native _ operation imported)
    | receiver same => cases same
  · exact List.Subset.refl _
  · exact fun _ _ => rfl
  · exact fun none => absurd imported (none route)

/-- What an import brings and no node binds is the name of a built-in function, and these
names are bound already. -/
theorem framing_imported {k : Machine} {name : Text}
    (leads : (framing P base).Leads .statement m.importing n) (bound : name ∈ n.bindings.names)
    (state : k.Within P base) (new : name ∉ k.bindings.names) : Brought P name := by
  by_contra absent
  have found : (m.importing.bindings.find? name).isSome := by
    rw [← Machine.Framed.same leads.2 absent]
    exact (n.bindings.find?_isSome_iff name).mpr bound
  exact new (state.builtins ((Bindings.find?_isSome_iff _ name).mp found))

theorem framing_laws {files : Text → Option Text} (closed : ImportClosed files P)
    (base : Machine) : (framing P base).RegionLaws where
  refl _ := .refl
  trans := .trans
  coarsen moves := moves
  widen moves := moves
  scalar _ x := .scalar x
  named state named := Machine.Within.named state named
  entry _ container member := Value.Sound.entry container member
  stays moves value := Machine.Framed.stays moves _ value
  fault _ _ _ := trivial
  outOfFuel := trivial
  parts allowed inside part occurs := allowed part (.expr inside occurs)
  function _ allowed := .function allowed
  meaning _ := .inr fun _ => trivial
  copied {m v} state value := ⟨framing_store state (.copy m.store v), Value.Sound.copy value⟩
  pushed {m} shape {c} state values :=
    ⟨framing_store state (.push m.store shape c), .push fun k v member =>
      values v (c.mem_values.mpr ⟨k, member⟩)⟩
  stored _ _ assigns state container value := framing_stored assigns state container value
  world _ _ _ _ _ state := framing_unseen state rfl rfl rfl rfl rfl
  stmtParts allowed inside part occurs := allowed part (.expr inside occurs)
  stmtBlocks allowed inside member part occurs := allowed part (.block inside member occurs)
  stmtMeaning _ := .inr fun _ => trivial
  stmtName allowed member := ⟨_, allowed _ .self, member⟩
  bound {m} n {v} brought state value :=
    framing_set brought state (.copy m.store v) (Value.Sound.copy value)
  boundEntry _ _ _ brought state value := framing_boundEntry brought state value
  prompt _ _ := trivial
  closed state leads := framing_closed leads state
  given {m n v} _ leads value := by
    refine ⟨Machine.Within.withReceiver leads.1 rfl rfl rfl fun w same => ?_,
      Machine.Framed.giving leads.2 value⟩
    exact Machine.Within.named leads.1 (.receiver same)
  broken state _ := framing_unseen state rfl rfl rfl rfl rfl
  ended state := framing_unseen state rfl rfl rfl rfl rfl
  marked _ _ state := framing_unseen state rfl rfl rfl rfl rfl
  body sound member part occurs := Value.Sound.fits sound .here part (.function member occurs)
  param sound member := ⟨_, Value.Sound.fits sound .here _ .self, member⟩
  returned state leads took := framing_returned state leads took
  entered {m receiver} state values := by
    refine Machine.Within.withReceiver state rfl rfl rfl fun v same => ?_
    cases receiver with
    | none => exact Machine.Within.named state (.receiver same)
    | some w => exact values v same
  left {m n receiver} state leads := by
    refine ⟨Machine.Within.withReceiver leads.1 rfl rfl rfl fun v same => ?_, ?_⟩
    · exact Machine.Framed.stays leads.2 v (Machine.Within.named state (.receiver same))
    · exact { leads.2 with }
  imported _ leads bound state new := framing_imported leads bound state new
  importing imports _ := framing_importing closed imports
  resuming {m n} _ state leads :=
    Machine.Within.unseen state rfl rfl (.of_store rfl rfl rfl leads.2.stays leads.2.kept)

theorem framing_admits {files : Text → Option Text} (closed : ImportClosed files P)
    (base : Machine) : (framing P base).Admits files := by
  rintro ⟨line, route, allowed⟩ path source file
  refine ⟨fun site body next st parsed member => ?_, fun _ _ _ => trivial⟩
  exact closed.program (allowed _ .self) file parsed member

end Framing

/-! ## The nodes that a program can carry out -/

/-- A node that a program can carry out in a state: it occurs in a statement of the
program, or in a function in reach of the bindings or of the receiver. If one of these
nodes is an import, it may also occur in a file or in a function that an imported program
starts with. -/
inductive Machine.Mentions (m : Machine) (files : Text → Option Text) (body : Block) :
    Node → Prop where
  | program {st : Stmt} {part : Node} :
      st ∈ body → part.Occurs st.node → Mentions m files body part
  | function {v : Value} {site : Nat} {params : List Text} {inner : Block} {part : Node} :
      m.toFrame.Names v → m.store.Reaches v (.function site params inner) →
      part.Occurs (.function site params inner) → Mentions m files body part
  | imported {route part : Node} {path source : Text} {site next : Nat} {program : Block}
      {st : Stmt} : Mentions m files body (.load route) → files path = some source →
      parseSource site source = .ok (program, next) → st ∈ program →
      part.Occurs st.node → Mentions m files body part
  | native {route part : Node} (site : Nat) (operation : Native) :
      Mentions m files body (.load route) →
      part.Occurs (.function site operation.params operation.body) → Mentions m files body part

namespace Machine

variable {m : Machine} {files : Text → Option Text} {body : Block}

theorem mentions_importClosed (m : Machine) (files : Text → Option Text) (body : Block) :
    ImportClosed files (m.Mentions files body) where
  program imports file parsed member _ occurs := .imported imports file parsed member occurs
  native site operation imports _ occurs := .native site operation imports occurs

/-- A machine in which all values fit gets at the nodes that it mentions only. -/
theorem Fits.within_mentions (fits : m.Fits .any)
    (builtins : Bindings.builtinNames ⊆ m.bindings.names) (files : Text → Option Text)
    (body : Block) : m.Within (m.Mentions files body) m where
  named {v} named := by
    apply Value.Sound.of_fits fits (fits.framed named.holds)
    intro site params inner reaches part occurs
    exact .function named reaches occurs
  builtins := builtins
  original _ started := started
  site _ := rfl

/-- What holds of all nodes of a program, of the functions in reach, of the files and of the
built-in functions holds of what is mentioned. -/
theorem Mentions.of_all {Q : Node → Prop} {part : Node} (program : ∀ st ∈ body, st.node.All Q)
    (functions : ∀ v, m.toFrame.Names v → ∀ site params inner,
      m.store.Reaches v (.function site params inner) → Node.All Q (.function site params inner))
    (imported : ∀ path source site program next, files path = some source →
      parseSource site source = .ok (program, next) → ∀ st ∈ program, st.node.All Q)
    (native : ∀ site (operation : Native),
      Node.All Q (.function site operation.params operation.body))
    (mentions : m.Mentions files body part) : Q part := by
  cases mentions with
  | program member occurs => exact program _ member part occurs
  | function named reaches occurs => exact functions _ named _ _ _ reaches part occurs
  | imported _ file parsed member occurs =>
      exact imported _ _ _ _ _ file parsed _ member part occurs
  | native site operation _ occurs => exact native site operation part occurs

end Machine

/-! ## Built-in functions -/

/-- A node that binds at most the parameters of built-in functions, imports nothing and
assigns into no container. -/
@[mk_iff]
structure Node.Plain (part : Node) : Prop where
  binds : part.binds ⊆ [Native.first, Native.second]
  load (route : Node) : part ≠ .load route
  assign (target : Node) (path : List Node) (value : Node) : part ≠ .assign target path value

/-- A node that does not bind a name and assigns into no container. -/
def Node.Spares (name : Text) (part : Node) : Prop :=
  name ∉ part.binds ∧ ∀ target path value, part ≠ .assign target path value

theorem Node.Plain.spares {name : Text} (free : name ∉ [Native.first, Native.second]) {part : Node}
    (plain : part.Plain) : part.Spares name :=
  ⟨fun bound => free (plain.binds bound), plain.assign⟩

namespace Native

theorem all_plain (site : Nat) (operation : Native) :
    Node.All Node.Plain (.function site operation.params operation.body) := by
  cases operation <;>
    simp [Node.all_iff, Node.children, Node.exprs, Node.blocks, Node.plain_iff, Node.binds, params,
      body]

/-- The functions in reach of a built-in function are that function. -/
theorem all_plain_of_mem {site site' : Nat} {name : Text} {v : Value} {s : Store}
    (member : (name, v) ∈ Native.bindings site) {params : List Text} {body : Block}
    (reaches : s.Reaches v (.function site' params body)) :
    Node.All Node.Plain (.function site' params body) := by
  obtain ⟨⟨operation, i⟩, _, same⟩ := List.mem_map.mp (Bindings.mem_of_mem_ofList member)
  cases same
  cases reaches
  exact all_plain _ operation

/-- The name of a built-in function is not one of their parameters. -/
theorem name_not_param (operation : Native) : operation.name ∉ [first, second] := by
  cases operation <;> decide

/-- What a built-in function is bound to at the start counts as untouched. -/
theorem exists_isUntouched (site : Nat) (operation : Native) :
    ∃ v, (Native.bindings site).find? operation.name = some v ∧
      isUntouched site operation.name v = true := by
  have bound : ((Native.bindings site).find? operation.name).isSome := by
    cases operation <;> rfl
  obtain ⟨v, found⟩ := Option.isSome_iff_exists.mp bound
  obtain ⟨⟨_, i⟩, _, same⟩ := List.mem_map.mp (Bindings.mem_of_mem_ofList found)
  obtain ⟨-, rfl⟩ := Prod.mk.inj same
  refine ⟨_, found, ?_⟩
  rw [isUntouched, found]
  exact beq_self_eq_true _

end Native

/-- A program does not bind a name: none of its nodes does and, if one of them is an
import, no node of a file. -/
structure Block.Spares (files : Text → Option Text) (body : Block) (name : Text) : Prop where
  program : ∀ st ∈ body, st.node.All (name ∉ Node.binds ·)
  imported {st : Stmt} {route : Node} {path source : Text} {site next : Nat} {program : Block} :
    st ∈ body → Node.Occurs (.load route) st.node → files path = some source →
    parseSource site source = .ok (program, next) →
      ∀ inner ∈ program, inner.node.All (name ∉ Node.binds ·)

section Start

variable {input : Text} {files : Text → Option Text} {body : Block}

theorem Machine.all_plain_of_start {v : Value} {site : Nat} {params : List Text} {inner : Block}
    (named : (Machine.start input).toFrame.Names v)
    (reaches : (Machine.start input).store.Reaches v (.function site params inner)) :
    Node.All Node.Plain (.function site params inner) := by
  cases named with
  | bound member => exact Native.all_plain_of_mem member reaches
  | receiver same => cases same

/-- A fresh program mentions an import only if one occurs in it. -/
theorem Machine.occurs_of_mentions_load {route : Node}
    (mentions : (Machine.start input).Mentions files body (.load route)) :
    ∃ st ∈ body, ∃ route, Node.Occurs (.load route) st.node := by
  generalize load : Node.load route = part at mentions
  induction mentions generalizing route with
  | program member occurs => exact ⟨_, member, route, load ▸ occurs⟩
  | function named reaches occurs =>
      exact absurd load.symm ((all_plain_of_start named reaches _ occurs).load route)
  | imported _ _ _ _ _ ih => exact ih rfl
  | native _ _ _ _ ih => exact ih rfl

/-- A fresh program that spares the name of a built-in function mentions no node that binds
it. -/
theorem Block.Spares.not_brought (input : Text) {operation : Native}
    (spares : body.Spares files operation.name) :
    ¬Brought ((Machine.start input).Mentions files body) operation.name := by
  have plain : ∀ {part : Node}, part.Plain → operation.name ∉ part.binds :=
    fun plain bound => operation.name_not_param (plain.binds bound)
  rintro ⟨part, mentions, bound⟩
  cases mentions with
  | program member occurs => exact spares.program _ member part occurs bound
  | function named reaches occurs =>
      exact plain (Machine.all_plain_of_start named reaches part occurs) bound
  | imported imports file parsed member occurs =>
      obtain ⟨st, inside, route, load⟩ := Machine.occurs_of_mentions_load imports
      exact spares.imported inside load file parsed _ member part occurs bound
  | native site operation _ occurs =>
      exact plain (Native.all_plain site operation part occurs) bound

end Start

/-! ## Assignment frames -/

/-- **A statement rebinds only names that it mentions.** However a statement ends in a
reachable state, every name that no mentioned node binds is bound to the same value as
before, or to none if it was bound to none; and if no mentioned node assigns into a
container, the containers have kept their contents. In particular, let a program and, if it
imports, the files not bind the name of a built-in function. At every moment of a run that
name is bound to the built-in function that the program being run, which may be an imported
one, has started with. At the end of the run, and at all moments if the program does not
import, that is the function of the fresh state. -/
theorem assignment_frame :
    (∀ {m : Machine}, Reachable m → ∀ (fuel : Nat) (s : Surroundings) (st : Stmt),
      (∀ name, (∀ part, m.Mentions s.files [st] part → name ∉ part.binds) →
        (((calls fuel s).exec st).last m).bindings.find? name = m.bindings.find? name) ∧
      ((∀ target path value, ¬m.Mentions s.files [st] (.assign target path value)) →
        m.store.Extends (((calls fuel s).exec st).last m).store)) ∧
    ∀ (input : Text) (fuel : Nat) (s : Surroundings) (body : Block) (operation : Native)
      (n : Machine), body.Spares s.files operation.name →
      Meets fuel s body (Machine.start input) n →
        (∃ v, n.bindings.find? operation.name = some v ∧
          (Native.bindings n.builtinSite).find? operation.name = some v ∧
          Native.isUntouched n.builtinSite operation.name v = true) ∧
        ((∀ st ∈ body, ∀ route, ¬Node.Occurs (.load route) st.node) ∨
          n = (Block.run fuel s body).last (Machine.start input) →
          n.bindings.find? operation.name =
            (Machine.start input).bindings.find? operation.name) := by
  constructor
  · intro m reachable fuel s st
    have closed := m.mentions_importClosed s.files [st]
    have laws := framing_laws closed m
    have state := reachable.housed.1.within_mentions reachable.wellScoped.builtins.subset
      s.files [st]
    have follows : (framing (m.Mentions s.files [st]) m).Follows st.grain (fun _ _ => True)
        ((calls fuel s).exec st) ((calls fuel s).exec st) m :=
      Discipline.exec_follows laws (framing_admits closed m) state trivial
        fun _ occurs => .program List.mem_cons_self occurs
    have framed : m.Framed _ _ := (follows.last_leads laws.toLaws).2
    refine ⟨fun name absent => framed.same ?_, framed.kept⟩
    rintro ⟨part, mentions, bound⟩
    exact absent part mentions bound
  · intro input fuel s body operation n spares meets
    have closed := (Machine.start input).mentions_importClosed s.files body
    have laws := framing_laws closed (Machine.start input)
    have admits := framing_admits closed (Machine.start input)
    have fits : (Machine.start input).Fits .any := .start Grammar.any_laws input
    have state := fits.within_mentions (List.Subset.refl _) s.files body
    have stmts : ∀ st ∈ body, (framing ((Machine.start input).Mentions s.files body)
        (Machine.start input)).stmt st := fun _ member _ occurs => .program member occurs
    have absent := spares.not_brought input
    have within : n.Within _ (Machine.start input) := meets.state laws admits stmts state
    have original := within.original absent rfl
    constructor
    · obtain ⟨v, found, untouched⟩ := Native.exists_isUntouched n.builtinSite operation
      exact ⟨v, original.trans found, found, untouched⟩
    · rintro (none | rfl)
      · rw [original, within.site fun route mentions => ?_]
        · rfl
        · obtain ⟨st, member, route, occurs⟩ := Machine.occurs_of_mentions_load mentions
          exact none st member route occurs
      · have framed : Machine.Framed _ _ ((Block.run fuel s body).last _) :=
          ((Discipline.run_follows laws admits state stmts).last_leads laws.toLaws).2
        exact framed.same absent

/-- A method in an object imports a file and binds its parameter and another name among the
bindings of its caller. The name `x` is not bound by any of this, and no container is assigned
into; and the name of a built-in function is spared by the whole program and by the file. -/
theorem assignment_frame_method :
    let s : Surroundings :=
      { files := fun p => if p = "lib" then some "z = \"new\"" else none }
    let body : Block := [⟨1, .bind "x" (.text "old")⟩,
      ⟨2, .bind "o" (.container .object ⟨[(.string "m",
        some (.function 7 ["a"] [⟨2, .load (.text "lib")⟩, ⟨2, .bind "t" (.name "a")⟩]))]⟩)⟩]
    let st : Stmt := ⟨3, .call (.index (.name "o") [.text "m"]) [.text "new"]⟩
    let m := (Block.run 9 s body).last (Machine.start [])
    let last := ((calls 9 s).exec st).last m
    let n := (Block.run 9 s (body ++ [st])).last (Machine.start [])
    (m.Mentions s.files [st] (.load (.text "lib")) ∧
      ∀ part, m.Mentions s.files [st] part → part.Spares "x") ∧
    (last.bindings.find? "x" = m.bindings.find? "x" ∧ m.store.Extends last.store) ∧
    Block.Spares s.files (body ++ [st]) Native.log.name ∧
    (∃ v, n.bindings.find? Native.log.name = some v ∧
      (Native.bindings n.builtinSite).find? Native.log.name = some v ∧
      Native.isUntouched n.builtinSite Native.log.name v = true) ∧
    n.bindings.find? Native.log.name = (Machine.start []).bindings.find? Native.log.name := by
  intro s body st m last n
  have bindings : m.bindings =
      ((Native.bindings 0).set "x" (.text "old")).set "o" (.container .object 1) := by rfl
  have entries : (m.store.get 1).entries = [(.string "m", some (.function 7 ["a"]
      [⟨2, .load (.text "lib")⟩, ⟨2, .bind "t" (.name "a")⟩]))] := by rfl
  have receiver : m.receiver = none := by rfl
  have reachable : Reachable m := .run (.start []) (.last 9 s body _)
  have file : ∀ path source site program next, s.files path = some source →
      parseSource site source = .ok (program, next) →
        program = [⟨1, .newLine⟩, ⟨1, .bind "z" (.text "new")⟩] := by
    intro path source site program next file done
    have parsed : parseSource site "z = \"new\"" =
      .ok ([⟨1, .newLine⟩, ⟨1, .bind "z" (.text "new")⟩], site) := by cbv
    simp only [s] at file
    split at file
    · cases file
      cases parsed.symm.trans done
      rfl
    · cases file
  clear_value m
  have other : ("x" : Text) ≠ "a" ∧ ("x" : Text) ≠ "t" ∧ ("x" : Text) ≠ "z" := by decide
  have plain {part : Node} : part.Plain → part.Spares "x" := Node.Plain.spares (by decide)
  have all : ∀ part, m.Mentions s.files [st] part → part.Spares "x" := by
    intro part mentions
    refine mentions.of_all ?_ ?_ ?_ fun site operation part occurs =>
      plain (Native.all_plain site operation part occurs)
    · simp [st, Node.text, Node.all_iff, Node.children, Node.exprs, Node.blocks, Node.binds,
        Node.Spares]
    · rintro v (member | same) site params inner reaches
      · rw [bindings] at member
        rcases Bindings.mem_set member with ⟨_, rfl⟩ | member
        · cases reaches with
          | inside member reaches =>
              rw [entries] at member
              cases List.mem_singleton.mp member
              cases reaches
              simp [Node.text, Node.all_iff, Node.children, Node.exprs, Node.blocks, Node.binds,
                Node.Spares, other]
        · rcases Bindings.mem_set member with ⟨_, rfl⟩ | native
          · cases reaches
          · exact fun part occurs => plain (Native.all_plain_of_mem native reaches part occurs)
      · rw [receiver] at same
        cases same
    · intro path source site program next found done
      rw [file path source site program next found done]
      simp [Node.text, Node.all_iff, Node.children, Node.exprs, Node.blocks, Node.binds,
        Node.Spares, other]
  have spares : Block.Spares s.files (body ++ [st]) Native.log.name := by
    have others : ∀ t ∈ (["x", "o", "a", "t", "z"] : List Text), Native.log.name ≠ t := by decide
    simp only [List.forall_mem_cons] at others
    constructor
    · simp [body, st, Node.text, Node.all_iff, Node.children, Node.exprs, Node.blocks, Node.binds,
        Items.values, others]
    · intro _ _ path source site next program _ _ found done
      rw [file path source site program next found done]
      simp [Node.text, Node.all_iff, Node.children, Node.exprs, Node.blocks, Node.binds, others]
  have law := assignment_frame.1 reachable 9 s st
  have builtin := assignment_frame.2 [] 9 s (body ++ [st]) .log n spares (.last 9 s _ _)
  refine ⟨⟨?_, all⟩, ⟨?_, ?_⟩, spares, builtin.1, builtin.2 (.inr rfl)⟩
  · have bound : (("o" : Text), Value.container .object 1) ∈ m.bindings := by
      rw [bindings]
      exact Bindings.find?_set ..
    exact .function (.bound bound) (.inside (entries ▸ List.mem_cons_self) .here)
      (.function List.mem_cons_self .self)
  · exact law.1 "x" fun part mentions => (all part mentions).1
  · exact law.2 fun target path value mentions => (all _ mentions).2 target path value rfl

/-- A statement without imports may call a function that imports another one, and this
one binds a name that occurs in no function in reach before. -/
theorem assignment_frame_imported_function :
    let s : Surroundings :=
      { files := fun p => if p = "lib" then some "g = () => \x7b y = \"new\" \x7d" else none }
    let m := (Block.run 9 s [⟨1, .bind "y" (.text "old")⟩,
      ⟨2, .bind "f" (.function 7 [] [⟨2, .load (.text "lib")⟩, ⟨2, .call (.name "g") []⟩])⟩]).last
      (Machine.start [])
    let st : Stmt := ⟨3, .call (.name "f") []⟩
    Reachable m ∧ (∀ path, ¬Node.Occurs (.load path) st.node) ∧
      (∀ part, m.Mentions (fun _ => none) [st] part → ("y" : Text) ∉ part.binds) ∧
      (((calls 9 s).exec st).last m).bindings.find? "y" ≠ m.bindings.find? "y" := by
  intro s m st
  have bindings : m.bindings = ((Native.bindings 0).set "y" (.text "old")).set "f"
      (.function 7 [] [⟨2, .load (.text "lib")⟩, ⟨2, .call (.name "g") []⟩]) := by rfl
  have receiver : m.receiver = none := by rfl
  have before : m.bindings.find? "y" = some (.text "old") := by rfl
  have after : (((calls 9 s).exec st).last m).bindings.find? "y" = some (.text "new") := by cbv
  refine ⟨.run (.start []) (.last 9 s _ _), ?_, ?_, ?_⟩
  · intro path occurs
    have all : st.node.All (· ≠ .load path) := by
      simp [st, Node.all_iff, Node.children, Node.exprs, Node.blocks]
    exact all _ occurs rfl
  · clear_value m
    intro part mentions
    have plain {part : Node} : part.Plain → part.Spares "y" := Node.Plain.spares (by decide)
    refine (mentions.of_all (Q := Node.Spares "y") ?_ ?_ (fun _ _ _ _ _ found => by cases found)
      fun site operation part occurs => plain (Native.all_plain site operation part occurs)).1
    · simp [st, Node.all_iff, Node.children, Node.exprs, Node.blocks, Node.binds, Node.Spares]
    · rintro v (member | same) site params inner reaches
      · rw [bindings] at member
        rcases Bindings.mem_set member with ⟨_, rfl⟩ | member
        · cases reaches
          simp [Node.text, Node.all_iff, Node.children, Node.exprs, Node.blocks, Node.binds,
            Node.Spares]
        · rcases Bindings.mem_set member with ⟨_, rfl⟩ | native
          · cases reaches
          · exact fun part occurs => plain (Native.all_plain_of_mem native reaches part occurs)
      · rw [receiver] at same
        cases same
  · rw [before, after]
    simp only [Value.text, ne_eq, Option.some.injEq, Value.scalar.injEq, Scalar.string.injEq]
    decide

end EplLang
