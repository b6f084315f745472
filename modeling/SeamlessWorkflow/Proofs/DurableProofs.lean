import SeamlessWorkflow.Context.System

/-!
# Derivation keeps the durable part

The durable part of a Context is what its callers have put there: the nodes without their derived
fields, the edges, the namespaces, the revisions, the attachments and the held code. Derivation
writes derived fields, the run ledger and the tables of held references only.
-/

namespace SeamlessWorkflow

/-- A node without its derived fields. -/
def Node.durable (node : Node) : Node :=
  { node with
    state := .unwired, blockReason := none, currentChecksum := none, exception := none
    body := match node.body with
      | .cell fields => .cell fields
      | .transformer fields => .transformer
          { config := fields.config, pinProducers := fields.pinProducers } }

structure Durable where
  node : NodePath → Option Node
  edges : List Edge
  namespaces : List NodePath
  revisions : AList (fun _ : NodePath => Nat)
  mountSessions : AList (fun _ : NodePath × String => MountSession)
  codeRefholds : AList (fun _ : NodePath => Checksum)
  nextIdent : Nat

def Ctx.durable (ctx : Ctx) : Durable :=
  { node := fun path => (ctx.node? path).map Node.durable
    edges := ctx.graph.edges, namespaces := ctx.graph.namespaces
    revisions := ctx.revisions, mountSessions := ctx.mountSessions
    codeRefholds := ctx.codeRefholds, nextIdent := ctx.nextIdent }

@[simp] theorem Node.durable_isCell (node : Node) : node.durable.isCell = node.isCell := by
  unfold Node.durable Node.isCell
  cases node.body <;> rfl

@[simp] theorem Node.durable_config (node : Node) : node.durable.config = node.config := by
  unfold Node.durable Node.config
  cases node.body <;> rfl

@[simp] theorem Node.durable_celltype (node : Node) : node.durable.celltype = node.celltype := by
  unfold Node.durable Node.celltype
  cases node.body <;> rfl

/-- A change of the pins' derived fields only. -/
theorem Node.durable_mapTransformer {f : TransformerFields → TransformerFields}
    (hconfig : ∀ fields, (f fields).config = fields.config)
    (hpins : ∀ fields, (f fields).pinProducers = fields.pinProducers) (node : Node) :
    (node.mapTransformer f).durable = node.durable := by
  unfold Node.mapTransformer
  cases h : node.body with
  | cell fields => rfl
  | transformer fields => simp [Node.durable, h, hconfig, hpins]

namespace ContextGraph

theorem lookup_updateNode (g : ContextGraph) (path : NodePath) (f : Node → Node) (q : NodePath) :
    (g.updateNode path f).nodes.lookup q =
      if q = path then (g.nodes.lookup path).map f else g.nodes.lookup q := by
  unfold updateNode
  cases h : g.nodes.lookup path with
  | none =>
    by_cases hq : q = path
    · rw [if_pos hq, hq, h]; rfl
    · rw [if_neg hq]
  | some node =>
    by_cases hq : q = path
    · rw [if_pos hq, hq]; exact AList.lookup_insert _
    · rw [if_neg hq]; exact AList.lookup_insert_ne hq

@[simp] theorem updateNode_edges (g : ContextGraph) (path : NodePath) (f : Node → Node) :
    (g.updateNode path f).edges = g.edges := by
  unfold updateNode; split <;> rfl

@[simp] theorem updateNode_namespaces (g : ContextGraph) (path : NodePath) (f : Node → Node) :
    (g.updateNode path f).namespaces = g.namespaces := by
  unfold updateNode; split <;> rfl

@[simp] theorem assignSymbol_nodes (env : Substrate) (g : ContextGraph) (recipe : Recipe) :
    (g.assignSymbol env recipe).2.nodes = g.nodes := by
  unfold assignSymbol; split <;> rfl

@[simp] theorem assignSymbol_edges (env : Substrate) (g : ContextGraph) (recipe : Recipe) :
    (g.assignSymbol env recipe).2.edges = g.edges := by
  unfold assignSymbol; split <;> rfl

@[simp] theorem assignSymbol_namespaces (env : Substrate) (g : ContextGraph) (recipe : Recipe) :
    (g.assignSymbol env recipe).2.namespaces = g.namespaces := by
  unfold assignSymbol; split <;> rfl

end ContextGraph

namespace Ctx

/-- The durable part does not depend on what else is in a Context. -/
theorem durable_congr {ctx ctx' : Ctx} (hnode : ∀ path, ctx'.node? path = ctx.node? path)
    (hedges : ctx'.graph.edges = ctx.graph.edges)
    (hnamespaces : ctx'.graph.namespaces = ctx.graph.namespaces)
    (hrevisions : ctx'.revisions = ctx.revisions)
    (hsessions : ctx'.mountSessions = ctx.mountSessions)
    (hcode : ctx'.codeRefholds = ctx.codeRefholds) (hident : ctx'.nextIdent = ctx.nextIdent) :
    ctx'.durable = ctx.durable := by
  simp only [durable, hedges, hnamespaces, hrevisions, hsessions, hcode, hident, funext hnode]

/-- Steps that keep the durable part one after the other. -/
theorem durable_foldl {α : Type} {f : Ctx → α → Ctx}
    (h : ∀ ctx a, (f ctx a).durable = ctx.durable) (as : List α) (ctx : Ctx) :
    (as.foldl f ctx).durable = ctx.durable := by
  induction as generalizing ctx with
  | nil => rfl
  | cons a as ih => rw [List.foldl_cons, ih, h]

@[simp] theorem durable_increfAll (cs : List Checksum) (ctx : Ctx) :
    (ctx.increfAll cs).durable = ctx.durable :=
  durable_foldl (f := fun ctx c => ctx.incref c) (fun _ _ => rfl) cs ctx

@[simp] theorem durable_decrefAll (cs : List Checksum) (ctx : Ctx) :
    (ctx.decrefAll cs).durable = ctx.durable :=
  durable_foldl (f := fun ctx c => ctx.decref c) (fun _ _ => rfl) cs ctx

@[simp] theorem durable_unsettle (ctx : Ctx) : ctx.unsettle.durable = ctx.durable := rfl

@[simp] theorem durable_addEffect (effect : Effect) (ctx : Ctx) :
    (ctx.addEffect effect).durable = ctx.durable := rfl

theorem durable_setDerived {f : Node → Node} (hf : ∀ node, (f node).durable = node.durable)
    (path : NodePath) (ctx : Ctx) : (ctx.setDerived path f).durable = ctx.durable := by
  have hnode : ∀ q, ((ctx.setDerived path f).node? q).map Node.durable =
      (ctx.node? q).map Node.durable := by
    intro q
    unfold setDerived node?
    rw [ContextGraph.lookup_updateNode]
    by_cases hq : q = path
    · rw [if_pos hq, hq]
      cases ctx.graph.nodes.lookup path with
      | none => rfl
      | some node => exact congrArg some (hf node)
    · rw [if_neg hq]
  simp only [durable, funext hnode]
  simp [setDerived]

@[simp] theorem durable_replaceCurrentChecksum (env : Substrate) (path : NodePath)
    (checksum : Option Checksum) (ctx : Ctx) :
    (ctx.replaceCurrentChecksum env path checksum).durable = ctx.durable := by
  unfold replaceCurrentChecksum
  cases ctx.node? path with
  | none => rfl
  | some node =>
    simp only [durable_unsettle, durable_decrefAll]
    refine (durable_setDerived ?_ path _).trans (durable_increfAll _ _)
    exact fun _ => rfl

/-! ## Reports -/

@[simp] theorem durable_noteFact (key : FactKey) (ctx : Ctx) :
    (ctx.noteFact key).durable = ctx.durable := by
  unfold noteFact
  dsimp only
  split <;> rfl

@[simp] theorem durable_noteAnonymous (env : Substrate) (entry : Recipe × Checksum) (ctx : Ctx) :
    (ctx.noteAnonymous env entry).durable = ctx.durable :=
  durable_congr (fun path => by simp [noteAnonymous, node?]) (by simp [noteAnonymous])
    (by simp [noteAnonymous]) rfl rfl rfl rfl

@[simp] theorem durable_noteEdgeCode (path : NodePath) (code : Option Checksum) (ctx : Ctx) :
    (ctx.noteEdgeCode path code).durable = ctx.durable := by
  unfold noteEdgeCode
  split <;> rfl

@[simp] theorem durable_report {α : Type} (env : Substrate) (x : Evaluated α) (ctx : Ctx) :
    (ctx.report env x).durable = ctx.durable := by
  unfold report
  refine (durable_foldl (fun ctx entry => ?_) _ _).trans (durable_foldl (fun ctx key => ?_) _ _)
  · exact durable_noteAnonymous ..
  · exact durable_noteFact ..

/-! ## The run ledger -/

@[simp] theorem durable_cancelRuns (records : List RunRecord) (ctx : Ctx) :
    (ctx.cancelRuns records).durable = ctx.durable := by
  refine durable_foldl (fun ctx record => ?_) records ctx
  split <;> rfl

@[simp] theorem durable_suspend (path : NodePath) (ctx : Ctx) :
    (ctx.suspend path).durable = ctx.durable := by
  unfold suspend
  split
  · rfl
  · exact durable_cancelRuns _ _

@[simp] theorem durable_dropQueued (path : NodePath) (dropped : RunRecord → Bool) (ctx : Ctx) :
    (ctx.dropQueued path dropped).durable = ctx.durable := by
  unfold dropQueued
  split
  · rfl
  · exact durable_cancelRuns _ _

@[simp] theorem durable_releaseUpstreamHolds (path : NodePath) (keep : RunRecord → Bool)
    (ctx : Ctx) : (ctx.releaseUpstreamHolds path keep).durable = ctx.durable :=
  durable_dropQueued ..

@[simp] theorem durable_setCurrentRun (path : NodePath) (record : RunRecord) (ctx : Ctx) :
    (ctx.setCurrentRun path record).durable = ctx.durable := rfl

@[simp] theorem durable_publishRun (env : Substrate) (path : NodePath) (record : RunRecord)
    (ctx : Ctx) : (ctx.publishRun env path record).durable = ctx.durable := by
  unfold publishRun
  dsimp only
  split
  all_goals
    refine (durable_setDerived ?_ path _).trans (durable_replaceCurrentChecksum ..)
    exact fun _ => rfl

@[simp] theorem durable_reinstate (env : Substrate) (path : NodePath) (record : RunRecord)
    (ctx : Ctx) : (ctx.reinstate env path record).durable = ctx.durable := by
  unfold reinstate
  simp only [durable_publishRun, durable_setCurrentRun]
  split <;> rfl

@[simp] theorem durable_launch (env : Substrate) (path : NodePath) (node : Node) (key : DemandKey)
    (ctx : Ctx) : (ctx.launch env path node key).durable = ctx.durable := by
  unfold launch
  dsimp only
  rw [durable_addEffect]
  refine (durable_setDerived ?_ path _).trans (durable_replaceCurrentChecksum ..)
  exact fun _ => rfl

@[simp] theorem durable_meetDemand (env : Substrate) (path : NodePath) (node : Node)
    (key : DemandKey) (ctx : Ctx) : (ctx.meetDemand env path node key).durable = ctx.durable := by
  unfold meetDemand
  simp only
  split
  · simp
  · split <;> simp

/-! ## Nodes -/

@[simp] theorem durable_applyOutcome (env : Substrate) (path : NodePath) (outcome : Outcome)
    (ctx : Ctx) : (ctx.applyOutcome env path outcome).durable = ctx.durable := by
  refine (durable_setDerived ?_ path _).trans (durable_replaceCurrentChecksum ..)
  exact fun _ => rfl

@[simp] theorem durable_writePins (path : NodePath) (reading : TransformerReading)
    (blocked : List (Reason × String)) (ctx : Ctx) :
    (ctx.writePins path reading blocked).durable = ctx.durable := by
  refine durable_setDerived (fun node => Node.durable_mapTransformer ?_ ?_ node) path ctx
  · exact fun _ => rfl
  · exact fun _ => rfl

@[simp] theorem durable_noteDerivation (path : NodePath) (ctx : Ctx) :
    (ctx.noteDerivation path).durable = ctx.durable := rfl

@[simp] theorem durable_deriveNode (env : Substrate) (ctx : Ctx) (path : NodePath) :
    (ctx.deriveNode env path).durable = ctx.durable := by
  unfold deriveNode
  dsimp only
  split
  · rfl
  · split
    · simp [deriveCell]
    · unfold deriveTransformer
      dsimp only
      split <;> simp

@[simp] theorem durable_startCellRun (path : NodePath) (node : Node) (checksum : Checksum)
    (ctx : Ctx) : (ctx.startCellRun path node checksum).durable = ctx.durable := by
  unfold startCellRun
  split <;> rfl

@[simp] theorem durable_updateRuntime (ctx : Ctx) (path : NodePath) :
    (ctx.updateRuntime path).durable = ctx.durable := by
  unfold updateRuntime
  split
  · rfl
  · split
    · rfl
    · split
      · simp
      · simp only
        split
        · split <;> simp
        · simp

/-! ## The tables of held references -/

@[simp] theorem durable_syncRefholds {κ ν : Type} [DecidableEq κ] [DecidableEq ν]
    (checksumOf : ν → Checksum) (old wanted : AList (fun _ : κ => ν)) (ctx : Ctx) :
    (ctx.syncRefholds checksumOf old wanted).durable = ctx.durable := by
  simp [syncRefholds]

@[simp] theorem durable_syncModuleRefholds (ctx : Ctx) :
    ctx.syncModuleRefholds.durable = ctx.durable := durable_syncRefholds ..

@[simp] theorem durable_syncEdgePinRefholds (ctx : Ctx) :
    ctx.syncEdgePinRefholds.durable = ctx.durable := durable_syncRefholds ..

@[simp] theorem durable_syncAnonymousCurrentRefholds (ctx : Ctx) :
    ctx.syncAnonymousCurrentRefholds.durable = ctx.durable := durable_syncRefholds ..

@[simp] theorem durable_syncSupersededRefholds (ctx : Ctx) :
    ctx.syncSupersededRefholds.durable = ctx.durable := by
  unfold syncSupersededRefholds
  dsimp only
  refine (durable_foldl (fun ctx item => ?_) _ _).trans (durable_foldl (fun ctx entry => ?_) _ _)
  · split <;> rfl
  · rfl

@[simp] theorem durable_pruneFacts (ctx : Ctx) : ctx.pruneFacts.durable = ctx.durable := by
  unfold pruneFacts
  refine (durable_foldl (fun ctx key => ?_) _ _).trans ?_
  · rfl
  · rfl

@[simp] theorem durable_beginDerivation (ctx : Ctx) :
    ctx.beginDerivation.durable = ctx.durable := durable_syncModuleRefholds ctx

/-- Derivation keeps the durable part. -/
theorem durable_deriveGraph (env : Substrate) (sorted : List NodePath) (ctx : Ctx) :
    (ctx.deriveGraph env sorted).durable = ctx.durable := by
  have h : ∀ ctx : Ctx, ({ ctx.syncSupersededRefholds with settled := true } : Ctx).durable =
      ctx.durable := durable_syncSupersededRefholds
  unfold deriveGraph
  dsimp only
  rw [h]
  refine (durable_foldl (fun ctx path => durable_updateRuntime ctx path) _ _).trans ?_
  rw [durable_pruneFacts, durable_syncAnonymousCurrentRefholds, durable_syncEdgePinRefholds]
  exact durable_foldl (fun ctx path => durable_deriveNode env ctx path) _ _

@[simp] theorem durable_poison (ctx : Ctx) : ctx.poison.durable = ctx.durable := rfl

/-! ## Where the derivation raises -/

/-- The second part of `_derive_transformer` raises once the holds upstream are released, or after the
current run has been suspended for a new one. -/
theorem meetDemandRaises_cases {env : Substrate} {path : NodePath} {node : Node} {key : DemandKey}
    {ctx raised : Ctx} (h : ctx.meetDemandRaises env path node key = some raised) :
    ∃ released, released = ctx.releaseUpstreamHolds path (fun record =>
        decide (record.demandKey = some key)) ∧
      released.graph.feedsNonScratchHolder env path = none ∧ (raised = released ∨
        raised = { released.suspend path with runtime := { (released.suspend path).runtime with
          generation := (released.suspend path).runtime.generation + 1 } }) := by
  refine ⟨_, rfl, ?_⟩
  unfold meetDemandRaises at h
  dsimp only at h
  split at h
  · cases h
  · rename_i hsearch
    refine ⟨not_not.mp hsearch, ?_⟩
    split at h
    · obtain ⟨-, h⟩ := Option.ite_none_right_eq_some.mp h
      exact .inl (Option.some.inj h).symm
    · obtain ⟨-, h⟩ := Option.ite_none_left_eq_some.mp h
      exact .inr (Option.some.inj h).symm

/-- Derivation raises at a transformer, when it has written what it found at the pins. -/
theorem nodeRaises_cases {env : Substrate} {path : NodePath} {ctx raised : Ctx}
    (h : ctx.nodeRaises env path = some raised) :
    ∃ node fields code pins, ctx.node? path = some node ∧ node.body = .transformer fields ∧
      (transformerReading env ctx.view path fields).value.verdict = .ready code pins ∧
      ((((ctx.noteDerivation path).report env (transformerReading env ctx.view path fields)).noteEdgeCode
        path (transformerReading env ctx.view path fields).value.edgeCode).writePins path
          (transformerReading env ctx.view path fields).value []).meetDemandRaises env path node
            (demandKey fields.config code pins) = some raised := by
  unfold nodeRaises at h
  dsimp only at h
  split at h
  · cases h
  · rename_i node hnode
    split at h
    · cases h
    · rename_i fields hbody
      split at h
      · rename_i code pins hverdict
        exact ⟨node, fields, code, pins, hnode, hbody, hverdict, h⟩
      · cases h

/-- One of the nodes raises, after those before it have been derived. -/
theorem nodesRaise_eq_some {env : Substrate} {raised : Ctx} : ∀ {paths : List NodePath} {ctx : Ctx},
    nodesRaise env paths ctx = some raised → ∃ before path after, paths = before ++ path :: after ∧
      (before.foldl (fun ctx path => ctx.deriveNode env path) ctx).nodeRaises env path = some raised := by
  intro paths
  induction paths with
  | nil => exact fun h => nomatch h
  | cons path paths ih =>
    intro ctx h
    unfold nodesRaise at h
    rcases Option.or_eq_some_iff.mp h with h | ⟨-, h⟩
    · exact ⟨[], path, paths, rfl, h⟩
    · obtain ⟨before, q, after, rfl, hq⟩ := ih h
      exact ⟨path :: before, q, after, rfl, hq⟩

theorem durable_graphRaises {env : Substrate} {sorted : List NodePath} {ctx raised : Ctx}
    (h : ctx.graphRaises env sorted = some raised) : raised.durable = ctx.durable := by
  obtain ⟨before, path, after, -, h⟩ := nodesRaise_eq_some h
  obtain ⟨node, fields, code, pins, -, -, -, h⟩ := nodeRaises_cases h
  obtain ⟨released, hreleased, -, h⟩ := meetDemandRaises_cases h
  have hbefore : released.durable = ctx.durable := by
    rw [hreleased]
    simp only [durable_releaseUpstreamHolds, durable_writePins, durable_noteEdgeCode, durable_report,
      durable_noteDerivation]
    exact durable_foldl (fun ctx path => durable_deriveNode env ctx path) _ _
  rcases h with rfl | rfl
  · exact hbefore
  · exact (durable_suspend path released).trans hbefore

end Ctx

/-- What `_derive_all` does: it derives the graph, or it leaves a poisoned Context. -/
theorem deriveAll_keeps_of {I : Ctx → Prop} {env : Substrate}
    (hderive : ∀ ctx sorted, sortPaths ctx.graph.nodes.keys = some sorted →
      Ctx.sourcesResolve ctx.graph = true → ctx.beginDerivation.graphRaises env sorted = none →
        I ctx → I (ctx.beginDerivation.deriveGraph env sorted))
    (hraise : ∀ ctx sorted raised, ctx.beginDerivation.graphRaises env sorted = some raised →
      I ctx → I raised.unsettle.poison)
    (hpoison : ∀ ctx, I ctx → I ctx.beginDerivation.poison) : Program.Keeps I (deriveAll env) := by
  intro ctx hctx
  unfold deriveAll
  simp only [bind, EStateM.bind, get, getThe, MonadStateOf.get, set]
  delta EStateM.get
  dsimp only
  cases hs : sortPaths ctx.graph.nodes.keys with
  | none => exact hpoison ctx hctx
  | some sorted =>
    cases hr : Ctx.sourcesResolve ctx.graph with
    | false => exact hpoison ctx hctx
    | true =>
      dsimp only
      cases hg : ctx.beginDerivation.graphRaises env sorted with
      | none => exact hderive ctx sorted hs hr hg hctx
      | some raised => exact hraise ctx sorted raised hg hctx

/-- Whatever depends on the durable part only is kept by `_derive_all`, also when it raises. -/
theorem deriveAll_keeps {I : Ctx → Prop}
    (hI : ∀ ctx ctx' : Ctx, ctx'.durable = ctx.durable → I ctx → I ctx') (env : Substrate) :
    Program.Keeps I (deriveAll env) := by
  refine deriveAll_keeps_of (fun ctx sorted _ _ _ => hI _ _ ?_)
    (fun ctx sorted raised hraise => hI _ _ ?_) fun ctx => hI _ _ ?_
  · rw [Ctx.durable_deriveGraph, Ctx.durable_beginDerivation]
  · rw [Ctx.durable_poison, Ctx.durable_unsettle, Ctx.durable_graphRaises hraise,
      Ctx.durable_beginDerivation]
  · rw [Ctx.durable_poison, Ctx.durable_beginDerivation]

end SeamlessWorkflow
