import SeamlessWorkflow.Proofs.TurnMoves

/-!
# Invariants of the ledger and of the symbols

Most of what an operation does leaves the run ledger, the symbols and the kind of every node alone.
`Upheld` lists what remains: the changes that an invariant of these has to survive. An invariant may
be weaker in the middle of an operation (`mid`) than between two of them (`full`).
-/

namespace SeamlessWorkflow

open Program

/-- The end of a Context, that of its controller included. -/
def Ctx.ends (ctx : Ctx) : Bool × Bool := (ctx.closing, ctx.poisoned)

/-- What a turn leaves to be carried out, whether the Context has ended, and what has been derived. -/
def Ctx.outcome (ctx : Ctx) : List Effect × (Bool × Bool) × List Derivation :=
  (ctx.effects, ctx.ends, ctx.derivations)

/-- What a turn has launched and posted stays launched and posted, unless the Context ends. -/
def HandsOn (ctx ctx' : Ctx) : Prop :=
  ctx'.closing = false → ctx'.ends = ctx.ends ∧
    Effect.launches ctx.effects ⊆ Effect.launches ctx'.effects ∧
    Effect.posts ctx.effects ⊆ Effect.posts ctx'.effects

/-- A change of anything but the run ledger, the symbols and the kinds of the nodes. -/
structure Frame (ctx ctx' : Ctx) : Prop where
  runtime : ctx'.runtime = ctx.runtime
  superseded : ctx'.supersededRefholds = ctx.supersededRefholds
  symbols : ctx'.graph.symbols = ctx.graph.symbols
  edges : List.Sublist ctx'.graph.edges ctx.graph.edges
  kind : ∀ path, (ctx'.node? path).map Node.isCell = (ctx.node? path).map Node.isCell
  launches : List.Sublist (Effect.launches ctx'.effects) (Effect.launches ctx.effects)
  posts : List.Sublist (Effect.posts ctx'.effects) (Effect.posts ctx.effects)
  handsOn : HandsOn ctx ctx'
  derivations : ctx'.derivations = ctx.derivations

/-- The derived fields of a node that are not among its inputs. -/
def Node.record (node : Node) :
    NodeState × Option BlockReason × Option Checksum × Option Error :=
  (node.state, node.blockReason, node.currentChecksum, node.exception)

/-- The same, with the records of the nodes left alone. -/
structure Steady (ctx ctx' : Ctx) : Prop extends Frame ctx ctx' where
  record : ∀ path, (ctx'.node? path).map Node.record = (ctx.node? path).map Node.record

/-- The changes that an invariant has to survive. `delivers` limits the messages of runs, `assigns`
the assignments, `loads` the graphs that are loaded and `derives` the states from which nodes are
derived; the end of a Context leaves the empty graph. -/
structure Upheld (env : Substrate)
    (delivers : Ctx → NodePath → Nat → (RunRecord → RunRecord) → Prop)
    (assigns : Ctx → NodePath → AssignValue → Prop) (loads : ContextGraph → Prop)
    (derives : Derivation → Prop) (mid full : Ctx → Prop) : Prop where
  weaken : ∀ {ctx}, full ctx → mid ctx
  steady : ∀ {ctx ctx'}, Steady ctx ctx' → full ctx → full ctx'
  steady_mid : ∀ {ctx ctx'}, Steady ctx ctx' → mid ctx → mid ctx'
  forget : ∀ {ctx} path, full ctx →
    full (ctx.modifyGraph fun g => g.updateNode path fun node => { node with exception := none })
  release : ∀ {ctx path ep}, assigns ctx path (.endpoint ep) →
    (ctx.node? path).map Node.isCell = some false → full ctx →
      full (ctx.replaceCurrentChecksum env path none)
  sync : ∀ {ctx}, mid ctx → full ctx.syncSupersededRefholds
  create : ∀ {ctx} path body, path ∉ ctx.graph.nodes → full ctx →
    full { ctx.modifyGraph (fun g => g.putNode path { ident := ctx.nextIdent, body := body }) with
      nextIdent := ctx.nextIdent + 1 }
  append : ∀ {ctx edge edge' graph}, edge.sourceChain = [] →
    ctx.graph.registerEdgeSymbols env edge = some (edge', graph) → full ctx →
      full (ctx.modifyGraph fun _ => { graph with edges := graph.edges ++ [edge'] })
  derive : ∀ {ctx sorted}, sortPaths ctx.graph.nodes.keys = some sorted →
    (∀ d ∈ (ctx.beginDerivation.deriveGraph env sorted).derivations, derives d) → full ctx →
      full (ctx.beginDerivation.deriveGraph env sorted)
  raised : ∀ {ctx sorted raised}, ctx.beginDerivation.graphRaises env sorted = some raised →
    (∀ d ∈ raised.derivations, derives d) → full ctx → full raised.unsettle.poison
  remove : ∀ {ctx} path node, mid ctx →
    mid (((ctx.modifyGraph fun g => g.eraseNode path).releaseNode path node).dropRuns path)
  convert : ∀ {ctx} path celltype, full ctx → mid ((ctx.dropRuns path).modifyGraph fun g =>
    (g.replaceEdgesTo path).updateNode path (Node.toCell celltype))
  started : ∀ {ctx path generation} identity,
    delivers ctx path generation (fun record => { record with identityChecksum := some identity }) →
      full ctx → full (ctx.updateRun path generation fun record =>
        { record with identityChecksum := some identity })
  delivered : ∀ {ctx path generation} identity result error,
    delivers ctx path generation (fun record => record.deliver identity result error) →
      full ctx → mid (ctx.updateRun path generation fun record =>
        record.deliver identity result error)
  dropQueued : ∀ {ctx} path dropped, full ctx → mid (ctx.dropQueued path dropped)
  pruneRuns : ∀ {ctx} selected, full ctx → mid (ctx.pruneRuns selected)
  dropCurrent : ∀ {ctx} path, full ctx → full (ctx.dropCurrentRun path)
  copyNodes : ∀ {ctx sourcePrefix targetPrefix descendants},
    assigns ctx targetPrefix (.subcontext sourcePrefix) → targetPrefix ∉ ctx.graph.nodes →
    (ctx.graph.addNamespace targetPrefix).descendants sourcePrefix = some descendants → full ctx →
      full (descendants.foldl (Ctx.copyNode env sourcePrefix targetPrefix)
        (ctx.modifyGraph fun g => g.addNamespace targetPrefix))
  copyEdge : ∀ {ctx} sourcePrefix targetPrefix edge, full ctx → edge ∈ ctx.graph.edges →
    Triple (fun next => full next ∧ next.derivations = ctx.derivations)
      (copyEdge env sourcePrefix targetPrefix edge) (fun _ => full) full
  load : ∀ {ctx graph}, loads graph → full ctx → full (ctx.replaceGraph env graph)
  close : ∀ {ctx}, loads {} → full ctx → full (finalState (close env ctx))

/-! ## Changes outside -/

namespace HandsOn

theorem of_eq {ctx ctx' : Ctx} (h : ctx'.outcome = ctx.outcome) : HandsOn ctx ctx' := by
  intro _
  rw [show ctx'.effects = ctx.effects from congrArg Prod.fst h]
  exact ⟨congrArg (fun outcome => outcome.2.1) h, List.Subset.refl _, List.Subset.refl _⟩

theorem refl (ctx : Ctx) : HandsOn ctx ctx := .of_eq rfl

theorem trans {a b c : Ctx} (h : HandsOn a b) (h' : HandsOn b c) : HandsOn a c := by
  intro hopen
  obtain ⟨hends', hl', hp'⟩ := h' hopen
  obtain ⟨hends, hl, hp⟩ := h ((congrArg Prod.fst hends').symm.trans hopen)
  exact ⟨hends'.trans hends, List.Subset.trans hl hl', List.Subset.trans hp hp'⟩

theorem addEffect (ctx : Ctx) (effect : Effect) : HandsOn ctx (ctx.addEffect effect) := by
  refine fun _ => ⟨rfl, ?_, ?_⟩
  · unfold Ctx.addEffect Effect.launches
    rw [List.filterMap_append]
    exact List.subset_append_left _ _
  · unfold Ctx.addEffect Effect.posts
    rw [List.filterMap_append]
    exact List.subset_append_left _ _

end HandsOn

namespace Frame

theorem refl (ctx : Ctx) : Frame ctx ctx :=
  ⟨rfl, rfl, rfl, .refl _, fun _ => rfl, .refl _, .refl _, .refl _, rfl⟩

theorem trans {a b c : Ctx} (h : Frame a b) (h' : Frame b c) : Frame a c where
  runtime := h'.runtime.trans h.runtime
  superseded := h'.superseded.trans h.superseded
  symbols := h'.symbols.trans h.symbols
  edges := h'.edges.trans h.edges
  kind path := (h'.kind path).trans (h.kind path)
  launches := h'.launches.trans h.launches
  posts := h'.posts.trans h.posts
  handsOn := h.handsOn.trans h'.handsOn
  derivations := h'.derivations.trans h.derivations

/-- A change outside the graph, the ledger and the effects. -/
theorem of_eq {ctx ctx' : Ctx} (hgraph : ctx'.graph = ctx.graph)
    (hruntime : ctx'.runtime = ctx.runtime)
    (hsuperseded : ctx'.supersededRefholds = ctx.supersededRefholds)
    (houtcome : ctx'.outcome = ctx.outcome) : Frame ctx ctx' where
  runtime := hruntime
  superseded := hsuperseded
  symbols := by rw [hgraph]
  edges := by rw [hgraph]
  kind path := by unfold Ctx.node?; rw [hgraph]
  launches := by rw [show ctx'.effects = ctx.effects from congrArg Prod.fst houtcome]
  posts := by rw [show ctx'.effects = ctx.effects from congrArg Prod.fst houtcome]
  handsOn := .of_eq houtcome
  derivations := congrArg (fun outcome => outcome.2.2) houtcome

/-- A change of the graph that keeps the kinds of the nodes and adds no edge. -/
theorem modifyGraph {ctx : Ctx} {f : ContextGraph → ContextGraph}
    (hsymbols : (f ctx.graph).symbols = ctx.graph.symbols)
    (hedges : List.Sublist (f ctx.graph).edges ctx.graph.edges)
    (hkind : ∀ path, ((f ctx.graph).nodes.lookup path).map Node.isCell =
      (ctx.graph.nodes.lookup path).map Node.isCell) : Frame ctx (ctx.modifyGraph f) :=
  ⟨rfl, rfl, hsymbols, hedges, hkind, .refl _, .refl _, .of_eq rfl, rfl⟩

end Frame

namespace Steady

theorem refl (ctx : Ctx) : Steady ctx ctx := ⟨.refl ctx, fun _ => rfl⟩

theorem trans {a b c : Ctx} (h : Steady a b) (h' : Steady b c) : Steady a c :=
  ⟨h.toFrame.trans h'.toFrame, fun path => (h'.record path).trans (h.record path)⟩

theorem of_eq {ctx ctx' : Ctx} (hgraph : ctx'.graph = ctx.graph)
    (hruntime : ctx'.runtime = ctx.runtime)
    (hsuperseded : ctx'.supersededRefholds = ctx.supersededRefholds)
    (houtcome : ctx'.outcome = ctx.outcome) : Steady ctx ctx' := by
  refine ⟨.of_eq hgraph hruntime hsuperseded houtcome, fun path => ?_⟩
  unfold Ctx.node?
  rw [hgraph]

theorem foldl {α : Type} {f : Ctx → α → Ctx} (h : ∀ ctx a, Steady ctx (f ctx a)) (as : List α)
    (ctx : Ctx) : Steady ctx (as.foldl f ctx) := by
  induction as generalizing ctx with
  | nil => exact .refl ctx
  | cons a as ih => exact (h ctx a).trans (ih (f ctx a))

/-- A change of the graph that keeps the nodes and adds no edge. -/
theorem modifyGraph {ctx : Ctx} {f : ContextGraph → ContextGraph}
    (hsymbols : (f ctx.graph).symbols = ctx.graph.symbols)
    (hedges : List.Sublist (f ctx.graph).edges ctx.graph.edges)
    (hnodes : (f ctx.graph).nodes = ctx.graph.nodes) : Steady ctx (ctx.modifyGraph f) := by
  refine ⟨.modifyGraph hsymbols hedges fun path => by rw [hnodes], fun path => ?_⟩
  show ((f ctx.graph).nodes.lookup path).map _ = (ctx.graph.nodes.lookup path).map _
  rw [hnodes]

end Steady

@[simp] theorem ContextGraph.updateNode_symbols (g : ContextGraph) (path : NodePath)
    (f : Node → Node) : (g.updateNode path f).symbols = g.symbols := by
  unfold updateNode
  split <;> rfl

theorem isCell_updateNode {f : Node → Node} (hf : ∀ node, (f node).isCell = node.isCell)
    (g : ContextGraph) (path q : NodePath) :
    ((g.updateNode path f).nodes.lookup q).map Node.isCell = (g.nodes.lookup q).map Node.isCell := by
  rw [ContextGraph.lookup_updateNode]
  by_cases hq : q = path
  · rw [if_pos hq, hq, Option.map_map]
    exact congrFun (congrArg Option.map (funext hf)) _
  · rw [if_neg hq]

/-- A change of one node that keeps its kind. -/
theorem frame_updateNode (path : NodePath) {f : Node → Node}
    (hf : ∀ node, (f node).isCell = node.isCell) (ctx : Ctx) :
    Frame ctx (ctx.modifyGraph fun g => g.updateNode path f) :=
  .modifyGraph (by simp) (by simp) (isCell_updateNode hf ctx.graph path)

theorem frame_setDerived (path : NodePath) {f : Node → Node}
    (hf : ∀ node, (f node).isCell = node.isCell) (ctx : Ctx) : Frame ctx (ctx.setDerived path f) :=
  (frame_updateNode path hf ctx).trans (.of_eq rfl rfl rfl rfl)

/-- A change of one node that keeps its kind and its record. -/
theorem steady_updateNode (path : NodePath) {f : Node → Node}
    (hf : ∀ node, (f node).isCell = node.isCell ∧ (f node).record = node.record) (ctx : Ctx) :
    Steady ctx (ctx.modifyGraph fun g => g.updateNode path f) := by
  refine ⟨frame_updateNode path (fun node => (hf node).1) ctx, fun q => ?_⟩
  show ((ctx.graph.updateNode path f).nodes.lookup q).map _ = (ctx.graph.nodes.lookup q).map _
  rw [ContextGraph.lookup_updateNode]
  by_cases hq : q = path
  · rw [if_pos hq, hq, Option.map_map]
    exact congrFun (congrArg Option.map (funext fun node => (hf node).2)) _
  · rw [if_neg hq]

theorem isCell_mapCell (f : CellFields → CellFields) (node : Node) :
    (node.mapCell f).isCell = node.isCell := by
  unfold Node.mapCell Node.isCell
  cases h : node.body <;> simp [h]

theorem isCell_mapTransformer (f : TransformerFields → TransformerFields) (node : Node) :
    (node.mapTransformer f).isCell = node.isCell := by
  unfold Node.mapTransformer Node.isCell
  cases h : node.body <;> simp [h]

theorem steady_mapCell (f : CellFields → CellFields) (node : Node) :
    (node.mapCell f).isCell = node.isCell ∧ (node.mapCell f).record = node.record := by
  refine ⟨isCell_mapCell f node, ?_⟩
  unfold Node.mapCell
  split <;> rfl

theorem steady_setDerived (path : NodePath) {f : Node → Node}
    (hf : ∀ node, (f node).isCell = node.isCell ∧ (f node).record = node.record) (ctx : Ctx) :
    Steady ctx (ctx.setDerived path f) :=
  (steady_updateNode path hf ctx).trans (.of_eq rfl rfl rfl rfl)

theorem steady_mapTransformer (f : TransformerFields → TransformerFields) (node : Node) :
    (node.mapTransformer f).isCell = node.isCell ∧ (node.mapTransformer f).record = node.record := by
  refine ⟨isCell_mapTransformer f node, ?_⟩
  unfold Node.mapTransformer
  split <;> rfl

theorem steady_increfAll (cs : List Checksum) (ctx : Ctx) : Steady ctx (ctx.increfAll cs) :=
  Steady.foldl (f := fun ctx c => ctx.incref c) (fun _ _ => .of_eq rfl rfl rfl rfl) cs ctx

theorem steady_decrefAll (cs : List Checksum) (ctx : Ctx) : Steady ctx (ctx.decrefAll cs) :=
  Steady.foldl (f := fun ctx c => ctx.decref c) (fun _ _ => .of_eq rfl rfl rfl rfl) cs ctx

theorem frame_increfAll (cs : List Checksum) (ctx : Ctx) : Frame ctx (ctx.increfAll cs) :=
  (steady_increfAll cs ctx).toFrame

theorem frame_decrefAll (cs : List Checksum) (ctx : Ctx) : Frame ctx (ctx.decrefAll cs) :=
  (steady_decrefAll cs ctx).toFrame

theorem steady_syncRefholds {κ ν : Type} [DecidableEq κ] [DecidableEq ν]
    (checksumOf : ν → Checksum) (old wanted : AList (fun _ : κ => ν)) (ctx : Ctx) :
    Steady ctx (ctx.syncRefholds checksumOf old wanted) :=
  (steady_increfAll _ ctx).trans (steady_decrefAll _ _)

theorem frame_syncRefholds {κ ν : Type} [DecidableEq κ] [DecidableEq ν]
    (checksumOf : ν → Checksum) (old wanted : AList (fun _ : κ => ν)) (ctx : Ctx) :
    Frame ctx (ctx.syncRefholds checksumOf old wanted) :=
  (steady_syncRefholds checksumOf old wanted ctx).toFrame

theorem steady_syncModuleRefholds (ctx : Ctx) : Steady ctx ctx.syncModuleRefholds :=
  (steady_syncRefholds id ctx.moduleRefholds _ ctx).trans (.of_eq rfl rfl rfl rfl)

theorem steady_beginDerivation (ctx : Ctx) : Steady ctx ctx.beginDerivation :=
  (steady_syncModuleRefholds ctx).trans (.of_eq rfl rfl rfl rfl)

theorem frame_beginDerivation (ctx : Ctx) : Frame ctx ctx.beginDerivation :=
  (steady_beginDerivation ctx).toFrame

theorem steady_poison (ctx : Ctx) : Steady ctx ctx.poison :=
  ⟨⟨rfl, rfl, rfl, .refl _, fun _ => rfl, List.nil_sublist _, List.nil_sublist _,
    fun hopen => Bool.noConfusion hopen, rfl⟩, fun _ => rfl⟩

theorem frame_replaceCurrentChecksum (env : Substrate) (path : NodePath)
    (checksum : Option Checksum) (ctx : Ctx) :
    Frame ctx (ctx.replaceCurrentChecksum env path checksum) := by
  unfold Ctx.replaceCurrentChecksum
  cases ctx.node? path with
  | none => exact .refl ctx
  | some node =>
    refine Frame.trans ?_ ((frame_decrefAll _ _).trans (.of_eq rfl rfl rfl rfl))
    refine (frame_increfAll _ ctx).trans (frame_setDerived path ?_ _)
    exact fun _ => rfl

theorem steady_releaseCode (path : NodePath) (ctx : Ctx) : Steady ctx (ctx.releaseCode path) :=
  (steady_decrefAll _ ctx).trans (.of_eq rfl rfl rfl rfl)

theorem frame_releaseNode (path : NodePath) (node : Node) (ctx : Ctx) :
    Frame ctx (ctx.releaseNode path node) :=
  (frame_decrefAll _ ctx).trans (steady_releaseCode path _).toFrame

theorem steady_detach (path : NodePath) (driver : String) (ctx : Ctx) :
    Steady ctx (ctx.detach path driver) := by
  unfold Ctx.detach
  split
  · exact .refl ctx
  · refine Steady.trans (b := { ctx with mountSessions := ctx.mountSessions.erase (path, driver) })
      (.of_eq rfl rfl rfl rfl) (steady_updateNode path (fun node => ?_) _)
    split
    · exact ⟨rfl, rfl⟩
    · split <;> exact ⟨rfl, rfl⟩

theorem steady_detachAll (path : NodePath) (ctx : Ctx) : Steady ctx (ctx.detachAll path) :=
  Steady.foldl (f := fun ctx (key : NodePath × String) => ctx.detach path key.2)
    (fun ctx key => steady_detach path key.2 ctx) _ ctx

theorem steady_detachSessions (ctx : Ctx) : Steady ctx ctx.detachSessions :=
  Steady.foldl (f := fun ctx (key : NodePath × String) => ctx.detach key.1 key.2)
    (fun ctx key => steady_detach key.1 key.2 ctx) _ ctx

theorem frame_detachSessions (ctx : Ctx) : Frame ctx ctx.detachSessions :=
  (steady_detachSessions ctx).toFrame

theorem steady_cancelRuns (records : List RunRecord) (ctx : Ctx) :
    Steady ctx (ctx.cancelRuns records) := by
  refine Steady.foldl (fun ctx record => ?_) records ctx
  split
  · refine ⟨⟨rfl, rfl, rfl, .refl _, fun _ => rfl, ?_, ?_, .addEffect ctx _, rfl⟩, fun _ => rfl⟩
    · simp [Ctx.addEffect, Effect.launches]
    · simp [Ctx.addEffect, Effect.posts]
  · exact .refl _

theorem frame_cancelRuns (records : List RunRecord) (ctx : Ctx) :
    Frame ctx (ctx.cancelRuns records) := (steady_cancelRuns records ctx).toFrame

/-! ## What has been derived -/

theorem derivations_appendEdge (env : Substrate) (edge : Edge) (derivations : List Derivation) :
    Keeps (fun ctx => ctx.derivations = derivations) (appendEdge env edge) := by
  refine Keeps.bind Keeps.get fun ctx => ?_
  split
  · exact Keeps.modify fun _ h => h
  · exact keeps_raise _ _

theorem derivations_copyEdge (env : Substrate) (s t : NodePath) (edge : Edge)
    (derivations : List Derivation) :
    Keeps (fun ctx => ctx.derivations = derivations) (copyEdge env s t edge) := by
  unfold copyEdge
  refine Keeps.ite (derivations_appendEdge env _ _) ?_
  refine Keeps.bind (keeps_resolve _) fun source => Keeps.bind Keeps.get fun ctx => ?_
  exact Keeps.bind (Keeps.modify fun _ h => h) fun _ => derivations_appendEdge env _ _

end SeamlessWorkflow
