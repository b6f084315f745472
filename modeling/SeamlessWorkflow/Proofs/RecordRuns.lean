import SeamlessWorkflow.Proofs.UpheldTurns
import SeamlessWorkflow.Proofs.NodeRecords
import SeamlessWorkflow.Proofs.RootCopies

/-!
# The records of the nodes in every reachable state

Between two derivations the record of a node hardly changes: a record is copied, an exception is
forgotten, and a new node starts with a blank one. One operation does more: the replacement of a
transformer by a bound source releases its result before the new edge is checked, and leaves the node
complete without a checksum when the edge is refused.
-/

namespace SeamlessWorkflow

open Program

/-! ## Records outside a derivation -/

/-- The record of a new node. -/
def Node.Blank (node : Node) : Prop := node.record = (.unwired, none, none, none)

/-- A node has the record of another one, except that the exception may be gone. -/
structure Node.Follows (old new : Node) : Prop where
  state : new.state = old.state
  blockReason : new.blockReason = old.blockReason
  checksum : new.currentChecksum = old.currentChecksum
  exception : new.exception = old.exception ∨ new.exception = none

/-- The record of a node would fit if its result had not been released. -/
def Node.Lacks (node : Node) : Prop :=
  node.currentChecksum = none ∧ ∃ c, ({ node with currentChecksum := some c } : Node).Fits

theorem Node.follows_of_record {old new : Node} (h : new.record = old.record) : old.Follows new := by
  unfold Node.record at h
  simp only [Prod.mk.injEq] at h
  obtain ⟨hstate, hreason, hchecksum, hexception⟩ := h
  exact ⟨hstate, hreason, hchecksum, Or.inl hexception⟩

theorem Node.Blank.fits {node : Node} (h : node.Blank) : node.Fits := by
  unfold Node.Blank Node.record at h
  simp only [Prod.mk.injEq] at h
  obtain ⟨hstate, hreason, hchecksum, hexception⟩ := h
  refine ⟨?_, ?_, ?_, fun _ _ => hreason⟩
  · simp [hstate, hchecksum]
  · simp [hexception]
  · simp [hstate]

/-- A record that fits still fits when its exception is gone. -/
theorem Node.Fits.follows {old new : Node} (h : old.Fits) (hf : old.Follows new) : new.Fits := by
  refine ⟨?_, fun he => ?_, fun hb => ?_, fun hb hm => ?_⟩
  · rw [hf.checksum, hf.state]
    exact h.checksum
  · rw [hf.state]
    rcases hf.exception with heq | hnone
    · exact h.exception (heq ▸ he)
    · rw [hnone] at he
      cases he
  · rw [hf.blockReason]
    exact h.blocked (hf.state ▸ hb)
  · rw [hf.blockReason]
    exact h.clear (hf.state ▸ hb) (hf.state ▸ hm)

theorem Node.Lacks.follows {old new : Node} (h : old.Lacks) (hf : old.Follows new) : new.Lacks := by
  obtain ⟨hnone, c, hfits⟩ := h
  exact ⟨hf.checksum.trans hnone, c, hfits.follows ⟨hf.state, hf.blockReason, rfl, hf.exception⟩⟩

/-- The records of a Context fit. -/
def Ctx.Fits (ctx : Ctx) : Prop := ∀ path node, ctx.node? path = some node → node.Fits

/-- The records fit, but for that of the node whose result has been released: it may lack its checksum
as long as the node has not been derived as a cell. -/
def Ctx.FitsBut (released : Option NodePath) (ctx : Ctx) : Prop :=
  ∀ path node, ctx.node? path = some node → node.Fits ∨ released = some path ∧ node.Lacks ∧
    ∀ d ∈ ctx.derivations, d.path = path → d.ofCell = false

namespace Ctx.FitsBut

variable {released : Option NodePath} {ctx ctx' : Ctx}

theorem of_fits (h : ctx.Fits) : ctx.FitsBut released := fun path node hnode => Or.inl (h path node hnode)

/-- A change after which every record is blank or follows the one that was there. -/
theorem follows (h : ctx.FitsBut released) (hd : ctx'.derivations = ctx.derivations)
    (hf : ∀ path new, ctx'.node? path = some new →
      new.Blank ∨ ∃ old, ctx.node? path = some old ∧ old.Follows new) : ctx'.FitsBut released := by
  intro path new hnew
  rcases hf path new hnew with hblank | ⟨old, hold, hfollows⟩
  · exact Or.inl hblank.fits
  · refine (h path old hold).imp (fun hfits => hfits.follows hfollows) ?_
    rintro ⟨hreleased, hlacks, hcells⟩
    exact ⟨hreleased, hlacks.follows hfollows, hd ▸ hcells⟩

theorem of_record (h : ctx.FitsBut released) (hd : ctx'.derivations = ctx.derivations)
    (hr : ∀ path, (ctx'.node? path).map Node.record = (ctx.node? path).map Node.record) :
    ctx'.FitsBut released := by
  refine h.follows hd fun path new hnew => Or.inr ?_
  have hrecord := hr path
  rw [hnew, Option.map_some, eq_comm, Option.map_eq_some_iff] at hrecord
  obtain ⟨old, hold, heq⟩ := hrecord
  exact ⟨old, hold, Node.follows_of_record heq.symm⟩

theorem of_nodes (h : ctx.FitsBut released) (hd : ctx'.derivations = ctx.derivations)
    (hn : ctx'.graph.nodes = ctx.graph.nodes) : ctx'.FitsBut released := by
  refine h.of_record hd fun path => ?_
  unfold Ctx.node?
  rw [hn]

/-- A change of one node. -/
theorem updateNode (h : ctx.FitsBut released) (path : NodePath) {f : Node → Node}
    (hf : ∀ node : Node, node.Follows (f node)) :
    (ctx.modifyGraph fun g => g.updateNode path f).FitsBut released := by
  refine h.follows rfl fun q new hnew => Or.inr ?_
  have hlookup : (ctx.modifyGraph fun g => g.updateNode path f).node? q =
      if q = path then (ctx.node? path).map f else ctx.node? q :=
    ctx.graph.lookup_updateNode path f q
  rw [hlookup] at hnew
  by_cases hq : q = path
  · rw [if_pos hq] at hnew
    obtain ⟨old, hold, rfl⟩ := Option.map_eq_some_iff.mp hnew
    exact ⟨old, hq ▸ hold, hf old⟩
  · rw [if_neg hq] at hnew
    exact ⟨new, hnew, Node.follows_of_record rfl⟩

end Ctx.FitsBut

/-! ## Copies and documents -/

/-- A copy has the record of the node that is copied. -/
theorem fits_copyNode (env : Substrate) (s t : NodePath) {ctx : Ctx} (path : NodePath) (h : ctx.Fits) :
    (ctx.copyNode env s t path).Fits := by
  unfold Ctx.copyNode
  cases hnode : ctx.node? path with
  | none => exact h
  | some node =>
    dsimp only
    set copy := node.copy env ctx.nextIdent with hcopy
    set put : Ctx := { ctx.modifyGraph (fun g => g.putNode (t ++ path.drop s.length) copy) with
      nextIdent := ctx.nextIdent + 1 } with hput
    have hfits : put.Fits := by
      intro q new hnew
      by_cases hq : q = t ++ path.drop s.length
      · have hlookup : put.node? q = some copy := by
          rw [hq]
          exact AList.lookup_insert _
        obtain rfl : copy = new := Option.some.inj (hlookup.symm.trans hnew)
        exact (h path node hnode).follows (Node.follows_of_record rfl)
      · have hlookup : put.node? q = ctx.node? q := AList.lookup_insert_ne hq
        exact h q new (hlookup.symm.trans hnew)
    have hheld : ∀ q, (put.increfAll (copy.producerChecksums ++ copy.currentChecksum.toList)).node? q =
        put.node? q := node?_of_graph (graph_increfAll _ _)
    split
    · exact fun q new hnew => hfits q new ((hheld q).symm.trans hnew)
    · exact fun q new hnew => hfits q new ((hheld q).symm.trans hnew)

theorem fits_copyNodes (env : Substrate) (s t : NodePath) (paths : List NodePath) :
    ∀ ctx : Ctx, ctx.Fits → (paths.foldl (Ctx.copyNode env s t) ctx).Fits := by
  induction paths with
  | nil => exact fun _ h => h
  | cons path paths ih => exact fun ctx h => ih _ (fits_copyNode env s t path h)

/-- A graph that has not been derived yet. -/
def ContextGraph.Fresh (g : ContextGraph) : Prop :=
  ∀ path node, g.nodes.lookup path = some node → node.Blank

theorem fresh_updateNode {g : ContextGraph} {f : Node → Node}
    (hf : ∀ node, (f node).record = node.record) (path : NodePath) (h : g.Fresh) :
    (g.updateNode path f).Fresh := by
  intro q node hnode
  rw [ContextGraph.lookup_updateNode] at hnode
  by_cases hq : q = path
  · rw [if_pos hq] at hnode
    obtain ⟨old, hold, rfl⟩ := Option.map_eq_some_iff.mp hnode
    exact (hf old).trans (h path old hold)
  · rw [if_neg hq] at hnode
    exact h q node hnode

theorem fresh_renumber {g : ContextGraph} (start : Nat) (h : g.Fresh) : (g.renumber start).Fresh := by
  have loop : ∀ (entries : List (NodePath × Nat)) (g : ContextGraph), g.Fresh →
      (entries.foldl (fun g entry => g.updateNode entry.1 fun node =>
        { node with ident := entry.2 }) g).Fresh := by
    intro entries
    induction entries with
    | nil => exact fun _ h => h
    | cons entry entries ih =>
      intro g h
      refine ih _ (fresh_updateNode ?_ entry.1 h)
      exact fun _ => rfl
  exact loop _ g h

theorem fresh_prepareNodes {env : Substrate} {version : String} {entries : List NodeEntry} :
    ∀ {urls : List String} {g g' : ContextGraph}, g.Fresh →
      prepareNodes env version entries urls g = .ok g' → g'.Fresh := by
  induction entries with
  | nil =>
    intro urls g g' hg h
    cases h
    exact hg
  | cons entry entries ih =>
    intro urls g g' hg h
    obtain ⟨-, -, h⟩ := bind_ok h
    obtain ⟨node, hnode, h⟩ := bind_ok h
    obtain ⟨-, -, h⟩ := bind_ok h
    obtain ⟨-, -, h⟩ := bind_ok h
    obtain ⟨-, -, h⟩ := bind_ok h
    have hblank : node.Blank := by
      obtain ⟨body, -, hmade⟩ := bind_ok hnode
      cases hmade
      rfl
    refine ih (fun q new hnew => ?_) h
    by_cases hq : q = entry.path
    · subst hq
      have hput : (g.putNode entry.path node).nodes.lookup entry.path = some node :=
        AList.lookup_insert _
      obtain rfl := Option.some.inj (hput.symm.trans hnew)
      exact hblank
    · exact hg q new ((AList.lookup_insert_ne hq).symm.trans hnew)

theorem fresh_prepareGraph {env : Substrate} {doc : Document} {g : ContextGraph}
    (h : prepareGraph env doc = .ok g) : g.Fresh := by
  obtain ⟨g', hnodes, hsame⟩ := prepareGraph_nodes h
  have hfresh : g'.Fresh := fresh_prepareNodes (fun _ _ hn => by cases hn) hnodes
  intro path node hnode
  exact hfresh path node (hsame ▸ hnode)

/-! ## Derivations -/

theorem Ctx.record_writePins (path : NodePath) (reading : TransformerReading)
    (blocked : List (Reason × String)) (ctx : Ctx) (q : NodePath) :
    ((ctx.writePins path reading blocked).node? q).map Node.record = (ctx.node? q).map Node.record := by
  unfold Ctx.writePins
  rw [node?_setDerived]
  by_cases hq : q = path
  · rw [if_pos hq, hq, Option.map_map]
    refine congrFun (congrArg Option.map (funext fun node => ?_)) _
    obtain ⟨ident, body⟩ := node
    cases body <;> rfl
  · rw [if_neg hq]

namespace Ctx.FitsBut

variable {env : Substrate} {released : Option NodePath} {ctx : Ctx}

/-- A derivation makes the record of its node fit, and leaves the others alone. -/
theorem deriveNode (h : ctx.FitsBut released) {path : NodePath}
    (hsettles : ∀ d ∈ (ctx.deriveNode env path).derivations, d.Settles env) :
    (ctx.deriveNode env path).FitsBut released := by
  intro q node hnode
  by_cases hq : q = path
  · subst hq
    exact Or.inl (fits_deriveNode hsettles hnode)
  · rw [node?_deriveNode_of_ne env ctx hq] at hnode
    refine (h q node hnode).imp_right ?_
    rintro ⟨hreleased, hlacks, hcells⟩
    refine ⟨hreleased, hlacks, fun d hd hpath => ?_⟩
    rw [derivations_deriveNode] at hd
    rcases List.mem_cons.mp hd with rfl | hd
    · exact absurd hpath.symm hq
    · exact hcells d hd hpath

theorem deriveNodes (paths : List NodePath) : ∀ {ctx : Ctx}, ctx.FitsBut released →
    (∀ d ∈ (paths.foldl (fun ctx path => ctx.deriveNode env path) ctx).derivations, d.Settles env) →
      (paths.foldl (fun ctx path => ctx.deriveNode env path) ctx).FitsBut released := by
  induction paths with
  | nil => exact fun h _ => h
  | cons path paths ih =>
    intro ctx h hsettles
    exact ih (h.deriveNode fun d hd => hsettles d (derivations_deriveNodes env paths _ hd)) hsettles

theorem deriveGraph (h : ctx.FitsBut released) {sorted : List NodePath}
    (hsettles : ∀ d ∈ (ctx.deriveGraph env sorted).derivations, d.Settles env) :
    (ctx.deriveGraph env sorted).FitsBut released := by
  rw [derivations_deriveGraph] at hsettles
  intro path node hnode
  rw [node?_deriveGraph] at hnode
  rw [derivations_deriveGraph]
  exact h.deriveNodes _ hsettles path node hnode

/-- A derivation that raises does so at a transformer, whose record it has not touched. -/
theorem graphRaises (h : ctx.FitsBut released) {sorted : List NodePath} {raised : Ctx}
    (hraised : ctx.graphRaises env sorted = some raised)
    (hsettles : ∀ d ∈ raised.derivations, d.Settles env) : raised.FitsBut released := by
  obtain ⟨before, path, after, -, hraised⟩ := nodesRaise_eq_some hraised
  have hbefore : (∀ d ∈ (before.foldl (fun ctx path => ctx.deriveNode env path) ctx).derivations,
      d.Settles env) → _ := h.deriveNodes before
  generalize before.foldl (fun ctx path => ctx.deriveNode env path) ctx = mid at hraised hbefore
  obtain ⟨node, fields, code, pins, hnode, hbody, hverdict, hraised⟩ := nodeRaises_cases hraised
  obtain ⟨held, hheld, -, hraised⟩ := meetDemandRaises_cases hraised
  have hderivations : held.derivations = (mid.noteDerivation path).derivations := by
    rw [hheld, derivations_releaseUpstreamHolds, (frame_writePins path _ _ _).derivations,
      derivations_noteEdgeCode, derivations_report]
  have hrecord : ∀ q, (held.node? q).map Node.record = (mid.node? q).map Node.record := by
    intro q
    rw [hheld, node?_of_graph (graph_releaseUpstreamHolds path _ _), Ctx.record_writePins]
    exact congrArg _ ((node?_of_graph (graph_noteEdgeCode path _ _) q).trans (node?_report env _ _ q))
  have hsame : raised.derivations = held.derivations ∧ ∀ q, raised.node? q = held.node? q := by
    rcases hraised with rfl | rfl
    · exact ⟨rfl, fun _ => rfl⟩
    · exact ⟨derivations_suspend path held, node?_of_graph (graph_suspend path held)⟩
  rw [hsame.1, hderivations] at hsettles
  have hrecords : ∀ q, (raised.node? q).map Node.record =
      ((mid.noteDerivation path).node? q).map Node.record := fun q => by
    rw [hsame.2, hrecord]
    rfl
  refine Ctx.FitsBut.of_record ?_ (hsame.1.trans hderivations) hrecords
  intro q new hnew
  refine (hbefore (fun d hd => hsettles d (List.mem_cons_of_mem _ hd)) q new hnew).imp_right ?_
  rintro ⟨hreleased, hlacks, hcells⟩
  refine ⟨hreleased, hlacks, fun d hd hpath => ?_⟩
  rcases List.mem_cons.mp hd with rfl | hd
  · show (mid.node? path).elim false Node.isCell = false
    rw [hnode]
    simp [Node.isCell, hbody]
  · exact hcells d hd hpath

end Ctx.FitsBut

/-! ## Events -/

/-- The transformer that an event replaces by a bound source, when it has a result. -/
def Event.replaces (ctx : Ctx) (event : Event) : Option NodePath :=
  match event with
  | .turn (.assign path (.endpoint _)) _ _ =>
    match ctx.node? path with
    | some node => if !node.isCell && node.currentChecksum.isSome then some path else none
    | none => none
  | _ => none

/-- An assignment releases the result of this node only, before anything is derived. -/
def Ctx.AssignReleases (released : Option NodePath) (ctx : Ctx) (path : NodePath)
    (value : AssignValue) : Prop :=
  match value with
  | .endpoint _ => ∀ node, ctx.node? path = some node → node.isCell = false →
      node.currentChecksum.isSome = true → released = some path ∧ ctx.derivations = []
  | .subcontext _ => released = none
  | _ => True

/-- The records that fit survive every change, when each node is derived from a state that settles it; a
graph that is loaded has blank ones. -/
theorem records_upheld (env : Substrate) (released : Option NodePath) :
    Upheld env (fun _ _ _ _ => True) (Ctx.AssignReleases released) ContextGraph.Fresh
      (Derivation.Settles env) (Ctx.FitsBut released) (Ctx.FitsBut released) where
  weaken h := h
  steady hs h := h.of_record hs.derivations hs.record
  steady_mid hs h := h.of_record hs.derivations hs.record
  forget path h := by
    refine h.updateNode path ?_
    exact fun _ => ⟨rfl, rfl, rfl, Or.inr rfl⟩
  release {ctx path ep} hassigns hkind h := by
    intro q node hnode
    rw [node?_replaceCurrentChecksum] at hnode
    by_cases hq : q = path
    · rw [if_pos hq] at hnode
      obtain ⟨old, hold, rfl⟩ := Option.map_eq_some_iff.mp hnode
      have hcell : old.isCell = false := by simpa [hold] using hkind
      cases hchecksum : old.currentChecksum with
      | none =>
        -- there is nothing to release
        refine (h path old hold).imp (fun hfits => hfits.follows ⟨rfl, rfl, hchecksum.symm, Or.inl rfl⟩) ?_
        rintro ⟨hreleased, hlacks, hcells⟩
        rw [(frame_replaceCurrentChecksum env path none ctx).derivations, hq]
        exact ⟨hreleased, hlacks.follows ⟨rfl, rfl, hchecksum.symm, Or.inl rfl⟩, hcells⟩
      | some c =>
        obtain ⟨hreleased, hnone⟩ := hassigns old hold hcell (by rw [hchecksum]; rfl)
        rw [(frame_replaceCurrentChecksum env path none ctx).derivations, hnone, hq]
        refine Or.inr ⟨hreleased, ⟨rfl, c, ?_⟩, fun d hd => absurd hd List.not_mem_nil⟩
        have hfits : old.Fits := by
          refine (h path old hold).resolve_right ?_
          rintro ⟨-, hlacks, -⟩
          exact absurd (hchecksum.symm.trans hlacks.1) (by simp)
        exact hfits.follows ⟨rfl, rfl, hchecksum.symm, Or.inl rfl⟩
    · rw [if_neg hq] at hnode
      rw [(frame_replaceCurrentChecksum env path none ctx).derivations]
      exact h q node hnode
  sync {ctx} h := h.of_nodes (congrArg (fun outcome => outcome.2.2) (tableOnly_sync ctx).outcome)
    (congrArg ContextGraph.nodes (graph_syncSupersededRefholds ctx))
  create {ctx} path body _ h := by
    refine h.follows rfl fun q new hnew => ?_
    by_cases hq : q = path
    · have hput : ({ ctx.modifyGraph (fun g => g.putNode path { ident := ctx.nextIdent, body := body })
          with nextIdent := ctx.nextIdent + 1 } : Ctx).node? q =
          some { ident := ctx.nextIdent, body := body } := by
        rw [hq]
        exact AList.lookup_insert _
      obtain rfl := Option.some.inj (hput.symm.trans hnew)
      exact Or.inl rfl
    · have hput : ({ ctx.modifyGraph (fun g => g.putNode path { ident := ctx.nextIdent, body := body })
          with nextIdent := ctx.nextIdent + 1 } : Ctx).node? q = ctx.node? q :=
        AList.lookup_insert_ne hq
      exact Or.inr ⟨new, hput.symm.trans hnew, Node.follows_of_record rfl⟩
  append _ hr h := h.of_nodes rfl (ContextGraph.registerEdgeSymbols_spec hr).1.nodes
  derive {ctx sorted} _ hsettles h := (h.of_nodes (derivations_beginDerivation ctx)
    (congrArg ContextGraph.nodes (graph_beginDerivation ctx))).deriveGraph hsettles
  raised {ctx sorted raised} hraised hsettles h := by
    have hbegun := h.of_nodes (derivations_beginDerivation ctx)
      (congrArg ContextGraph.nodes (graph_beginDerivation ctx))
    exact (hbegun.graphRaises hraised hsettles).of_nodes rfl rfl
  remove {ctx} path node h := by
    have hgraph : ((((ctx.modifyGraph fun g => g.eraseNode path).releaseNode path node).dropRuns
        path)).graph = ctx.graph.eraseNode path := by
      rw [graph_dropRuns]
      exact (graph_decrefAll _ _).trans (graph_decrefAll _ _)
    refine h.follows ((frame_cancelRuns _ _).derivations.trans (frame_releaseNode path node _).derivations)
      fun q new hnew => Or.inr ⟨new, ?_, Node.follows_of_record rfl⟩
    rw [Ctx.node?, hgraph] at hnew
    by_cases hq : q = path
    · rw [hq] at hnew
      have hgone : (ctx.graph.eraseNode path).nodes.lookup path = none := AList.lookup_erase ..
      rw [hgone] at hnew
      cases hnew
    · exact (AList.lookup_erase_ne hq).symm.trans hnew
  convert {ctx} path celltype h := by
    have hdropped : (ctx.dropRuns path).FitsBut released := h.of_nodes (frame_cancelRuns _ _).derivations
      (congrArg ContextGraph.nodes (graph_dropRuns path ctx))
    have hedges : ((ctx.dropRuns path).modifyGraph fun g => g.replaceEdgesTo path).FitsBut released :=
      hdropped.of_nodes rfl rfl
    refine hedges.updateNode path ?_
    exact fun _ => ⟨rfl, rfl, rfl, Or.inr rfl⟩
  started identity _ h := h.of_nodes (derivations_updateRun _ _ _ _)
    (congrArg ContextGraph.nodes (graph_updateRun _ _ _ _))
  delivered identity result error _ h := h.of_nodes (derivations_updateRun _ _ _ _)
    (congrArg ContextGraph.nodes (graph_updateRun _ _ _ _))
  dropQueued path dropped h := h.of_nodes (derivations_dropQueued path dropped _)
    (congrArg ContextGraph.nodes (graph_dropQueued _ _ _))
  pruneRuns selected h := h.of_nodes (frame_cancelRuns _ _).derivations
    (congrArg ContextGraph.nodes (graph_pruneRuns _ _))
  dropCurrent path h := h.of_nodes (frame_cancelRuns _ _).derivations
    (congrArg ContextGraph.nodes (graph_dropCurrentRun _ _))
  copyNodes {ctx s t descendants} hassigns _ _ h := by
    -- an assignment that copies a namespace releases nothing
    have hfits : ctx.Fits := by
      intro path node hnode
      refine (h path node hnode).resolve_right ?_
      rintro ⟨hreleased, -⟩
      cases hassigns.symm.trans hreleased
    exact .of_fits (fits_copyNodes env s t descendants _ hfits)
  copyEdge {ctx} s t edge _ _ := by
    rintro start ⟨h, hsame⟩
    have hnodes : Keeps (fun next => next.graph.nodes = start.graph.nodes) (copyEdge env s t edge) :=
      keeps_copyNodes s t edge
    have hboth := (hnodes.and (derivations_copyEdge env s t edge start.derivations)) start ⟨rfl, rfl⟩
    cases hr : copyEdge env s t edge start with
    | ok u next =>
      rw [hr] at hboth
      exact h.of_nodes hboth.2 hboth.1
    | error e next =>
      rw [hr] at hboth
      exact h.of_nodes hboth.2 hboth.1
  load {ctx graph} hl _ := .of_fits fun path node hnode =>
    Node.Blank.fits (fresh_renumber ctx.nextIdent hl path node hnode)
  close _ _ := .of_fits fun _ _ hnode => nomatch hnode

/-! ## Runs -/

/-- Every node is derived from a state that settles it, and a transformer with a result that a bound
source replaces is derived as a cell. -/
structure KeepsRecords (env : Substrate) (sys : System) (event : Event) : Prop where
  settles : ∀ d ∈ event.derivations env sys, d.Settles env
  replaced : ∀ path ∈ event.replaces sys.ctx, ∃ d ∈ event.derivations env sys,
    d.path = path ∧ d.ofCell = true

instance (env : Substrate) (sys : System) (event : Event) : Decidable (KeepsRecords env sys event) :=
  decidable_of_iff ((∀ d ∈ event.derivations env sys, d.Settles env) ∧
    ∀ path ∈ event.replaces sys.ctx, ∃ d ∈ event.derivations env sys, d.path = path ∧ d.ofCell = true)
    ⟨fun h => ⟨h.1, h.2⟩, fun h => ⟨h.settles, h.replaced⟩⟩

theorem Event.admitted_records (env : Substrate) (ctx : Ctx) (event : Event) :
    event.Admitted env (fun _ _ _ _ => True) (Ctx.AssignReleases (event.replaces ctx))
      ContextGraph.Fresh (event.arrive ctx) := by
  cases event with
  | turn t now missing =>
    cases t with
    | assign path value =>
      cases value with
      | endpoint ep =>
        intro node hnode hcell hchecksum
        have hnode : ctx.node? path = some node := hnode
        refine ⟨?_, rfl⟩
        unfold Event.replaces
        simp [hnode, hcell, hchecksum]
      | subcontext sourcePrefix => exact rfl
      | _ => trivial
    | setGraph doc attachments => exact fun graph hg => fresh_prepareGraph hg
    | close => exact fun _ _ hn => nomatch hn
    | _ => trivial
  | _ => trivial

/-- The records that fit still do after an event that derives every node from a state that settles it. -/
theorem Ctx.Fits.step {env : Substrate} {sys next : System} {event : Event} (h : sys.ctx.Fits)
    (hkeeps : KeepsRecords env sys event) (hs : sys.step env event = some next) : next.ctx.Fits := by
  have hnodes : ∀ path, (event.arrive sys.ctx).node? path = sys.ctx.node? path := by
    cases event <;> exact fun _ => rfl
  have harrived : (event.arrive sys.ctx).FitsBut (event.replaces sys.ctx) :=
    .of_fits fun path node hnode => h path node ((hnodes path).symm.trans hnode)
  obtain ⟨hsettles, hreplaced⟩ := hkeeps
  rw [Event.derivations_eq hs] at hsettles hreplaced
  rcases (records_upheld env (event.replaces sys.ctx)).given.step (fun _ => harrived) hs
    (event.admitted_records env sys.ctx) with rfl | ⟨ctx, hctx, rfl⟩
  · have hkept : (sys.accept event).ctx = sys.ctx := by cases event <;> rfl
    rw [hkept]
    exact h
  · intro path node hnode
    refine (hctx hsettles path node hnode).resolve_right ?_
    rintro ⟨hreleased, -, hcells⟩
    obtain ⟨d, hd, hpath, hcell⟩ := hreplaced path hreleased
    exact Bool.noConfusion ((hcells d hd hpath).symm.trans hcell)

/-- In every reachable state the records of the nodes fit, when no cell is left waiting or blocked while
it stores an exception, and no result is released of a transformer that is not replaced in the end. -/
theorem reachable_recordsFit {env : Substrate} {sys : System}
    (h : Reachable env (KeepsRecords env) sys) : sys.ctx.Fits :=
  h.invariant (I := fun sys => sys.ctx.Fits) (fun _ _ hnode => nomatch hnode)
    fun _ _ _ hfits hkeeps hs => hfits.step hkeeps hs

/-- The conversion of a value in a cell. -/
def convertsToText (c : Checksum) : FactKey := .expression c [] .mixed .text none none false false

/-- A conversion fails, and then its cell is deleted and made again for another value. -/
def convertAgain : List Event :=
  [.turn (.assign [.key "a"] (.checksum ⟨10⟩)) 0 [],
    .turn (.assign [.key "b"] (.cell
      { recipe := { celltype := .text }, input := .endpoint (cellEndpoint [.key "a"] []) })) 0 [],
    .turn (.acceptFact (convertsToText ⟨10⟩) (.failure ⟨.valueError, "not a text", 0⟩)) 0 [],
    .turn (.delete [.key "b"]) 0 [],
    .turn (.assign [.key "a"] (.checksum ⟨11⟩)) 0 [],
    .turn (.assign [.key "b"] (.cell
      { recipe := { celltype := .text }, input := .endpoint (cellEndpoint [.key "a"] []) })) 0 [],
    .turn (.acceptFact (convertsToText ⟨11⟩) (.result ⟨12⟩)) 0 []]

theorem convertAgain_runs : (System.run .fixed convertAgain {}).isSome = true := by decide +kernel

theorem reachable_recordsFit_convertAgain :
    ((System.run .fixed convertAgain {}).get convertAgain_runs).ctx.Fits :=
  reachable_recordsFit (Reachable.of_run .start (by decide +kernel) convertAgain_runs)

/-- A conversion fails, and then its source is cleared. -/
def clearAfterFailure : List Event :=
  [.turn (.assign [.key "a"] (.checksum ⟨10⟩)) 0 [],
    .turn (.assign [.key "b"] (.cell
      { recipe := { celltype := .text }, input := .endpoint (cellEndpoint [.key "a"] []) })) 0 [],
    .turn (.acceptFact (convertsToText ⟨10⟩) (.failure ⟨.valueError, "not a text", 0⟩)) 0 [],
    .turn (.cellOperation [.key "a"] [] (.checksum none) true none) 0 []]

theorem clearAfterFailure_runs : (System.run .fixed clearAfterFailure {}).isSome = true := by
  decide +kernel

/-- The cell is blocked and keeps the exception of its conversion. -/
theorem not_reachable_recordsFit :
    ¬ ∀ sys, Reachable .fixed (fun _ _ => True) sys → sys.ctx.Fits := by
  intro h
  have hfits := h _ (Reachable.of_run .start (by decide +kernel) clearAfterFailure_runs)
  have hblocked : ∃ node ∈ ((System.run .fixed clearAfterFailure {}).get
      clearAfterFailure_runs).ctx.node? [.key "b"],
      node.state = .blocked ∧ node.exception.isSome = true := by decide +kernel
  obtain ⟨node, hnode, hstate, hexception⟩ := hblocked
  have hfailed := (hfits _ node hnode).exception hexception
  rw [hstate] at hfailed
  cases hfailed

end SeamlessWorkflow
