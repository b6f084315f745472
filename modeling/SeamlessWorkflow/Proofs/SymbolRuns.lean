import SeamlessWorkflow.Proofs.Symbols
import SeamlessWorkflow.Proofs.LedgerInvariant

/-!
# The symbols of every reachable graph

Edits, copies and derivations keep the table one to one and the chains linked. A loaded document
does so as long as no symbol that a chain of it names has been given up for a later entry with the
same recipe.
-/

namespace SeamlessWorkflow

open Program Relation

/-! ## Derivation -/

theorem Frame.interns {ctx ctx' : Ctx} (h : Frame ctx ctx') : Interns ctx.graph ctx'.graph :=
  .of_eq h.symbols

theorem interns_foldl {α : Type} {f : Ctx → α → Ctx}
    (h : ∀ ctx a, Interns ctx.graph (f ctx a).graph) (as : List α) (ctx : Ctx) :
    Interns ctx.graph (as.foldl f ctx).graph := by
  induction as generalizing ctx with
  | nil => exact .refl _
  | cons a as ih => exact (h ctx a).trans (ih (f ctx a))

theorem interns_report {α : Type} (env : Substrate) (x : Evaluated α) (ctx : Ctx) :
    Interns ctx.graph (ctx.report env x).graph := by
  refine Interns.trans (interns_foldl (fun ctx key => ?_) x.used ctx)
    (interns_foldl (fun ctx entry => ?_) x.anonymous _)
  · exact .of_eq (congrArg ContextGraph.symbols (graph_noteFact key ctx))
  · exact (assignSymbol_interns env ctx.graph entry.1).1

theorem symbols_reinstate (env : Substrate) (path : NodePath) (record : RunRecord) (ctx : Ctx) :
    (ctx.reinstate env path record).graph.symbols = ctx.graph.symbols := by
  unfold Ctx.reinstate
  dsimp only
  refine (frame_publishRun env path _ _).symbols.trans ?_
  show (Ctx.setCurrentRun path _ _).graph.symbols = _
  split <;> rfl

theorem symbols_launch (env : Substrate) (path : NodePath) (node : Node) (key : DemandKey)
    (ctx : Ctx) : (ctx.launch env path node key).graph.symbols = ctx.graph.symbols := by
  unfold Ctx.launch
  dsimp only
  refine Eq.trans (frame_setDerived path ?_ _).symbols (frame_replaceCurrentChecksum _ _ _ _).symbols
  exact fun _ => rfl

theorem symbols_meetDemand (env : Substrate) (path : NodePath) (node : Node) (key : DemandKey)
    (ctx : Ctx) : (ctx.meetDemand env path node key).graph.symbols = ctx.graph.symbols := by
  unfold Ctx.meetDemand
  dsimp only
  split
  · rw [(frame_publishRun env path _ _).symbols, graph_releaseUpstreamHolds]
  · split
    · rw [symbols_reinstate, graph_suspend, graph_releaseUpstreamHolds]
    · rw [symbols_launch, graph_suspend, graph_releaseUpstreamHolds]

/-- What a transformer finds at its pins is written, and the values it has computed on the way are
registered. -/
theorem interns_writeReading (env : Substrate) (path : NodePath) (x : Evaluated TransformerReading)
    (stale : List (Reason × String)) (ctx : Ctx) : Interns ctx.graph (((ctx.report env x).noteEdgeCode path
      x.value.edgeCode).writePins path x.value stale).graph := by
  refine ((interns_report env x ctx).trans (.of_eq ?_)).trans (frame_writePins path _ _ _).interns
  unfold Ctx.noteEdgeCode
  split <;> rfl

theorem interns_deriveNode (env : Substrate) (ctx : Ctx) (path : NodePath) :
    Interns ctx.graph (ctx.deriveNode env path).graph := by
  unfold Ctx.deriveNode
  dsimp only
  rw [show ctx.graph = (ctx.noteDerivation path).graph from rfl]
  generalize ctx.noteDerivation path = noted
  split
  · exact .refl _
  · split
    · exact (interns_report env _ noted).trans (frame_applyOutcome env path _ _).interns
    · rename_i fields _
      unfold Ctx.deriveTransformer
      dsimp only
      have hwrite := fun stale =>
        interns_writeReading env path (transformerReading env noted.view path fields) stale noted
      split
      · refine Interns.trans (hwrite []) (.of_eq ?_)
        rw [(frame_applyOutcome env path _ _).symbols, graph_suspend]
      · rename_i pending _
        refine Interns.trans (hwrite (pending.filter fun entry => decide (entry.1 ≠ .waiting)))
          (.of_eq ?_)
        rw [(frame_applyOutcome env path _ _).symbols, graph_suspend]
      · exact Interns.trans (hwrite []) (.of_eq (symbols_meetDemand env path _ _ _))

/-- A derivation that raises has registered what it came across so far. -/
theorem interns_graphRaises {env : Substrate} {sorted : List NodePath} {ctx raised : Ctx}
    (h : ctx.graphRaises env sorted = some raised) : Interns ctx.graph raised.graph := by
  obtain ⟨before, path, after, -, h⟩ := Ctx.nodesRaise_eq_some h
  have hbefore := interns_foldl (fun ctx path => interns_deriveNode env ctx path) before ctx
  generalize before.foldl (fun ctx path => ctx.deriveNode env path) ctx = mid at h hbefore
  obtain ⟨node, fields, code, pins, -, -, -, h⟩ := Ctx.nodeRaises_cases h
  obtain ⟨released, hreleased, -, h⟩ := Ctx.meetDemandRaises_cases h
  have hgraph : Interns mid.graph released.graph := by
    rw [hreleased, graph_releaseUpstreamHolds]
    exact interns_writeReading env path (transformerReading env mid.view path fields) []
      (mid.noteDerivation path)
  refine hbefore.trans (hgraph.trans (.of_eq ?_))
  rcases h with rfl | rfl
  · rfl
  · exact congrArg ContextGraph.symbols (graph_suspend path released)

theorem interns_deriveGraph (env : Substrate) (sorted : List NodePath) (ctx : Ctx) :
    Interns ctx.graph (ctx.deriveGraph env sorted).graph := by
  have hruns : ∀ (paths : List NodePath) (ctx : Ctx),
      (paths.foldl (fun ctx path => ctx.updateRuntime path) ctx).graph = ctx.graph := by
    intro paths
    induction paths with
    | nil => exact fun _ => rfl
    | cons path paths ih => exact fun ctx => (ih _).trans (graph_updateRuntime ctx path)
  have hnodes := interns_foldl (fun ctx path => interns_deriveNode env ctx path)
    (ctx.graph.derivationOrder sorted) ctx
  refine hnodes.trans (.of_eq ?_)
  unfold Ctx.deriveGraph
  dsimp only
  rw [(tableOnly_sync _).graph, hruns, graph_pruneFacts]
  exact ((frame_syncEdgePinRefholds _).trans (frame_syncAnonymousCurrentRefholds _)).symbols

/-- Copying a node adds neither an edge nor a symbol. -/
theorem names_copyNode (env : Substrate) (s t : NodePath) (ctx : Ctx) (path : NodePath) :
    (ctx.copyNode env s t path).graph.symbols = ctx.graph.symbols ∧
      (ctx.copyNode env s t path).graph.edges = ctx.graph.edges := by
  unfold Ctx.copyNode
  cases ctx.node? path with
  | none => exact ⟨rfl, rfl⟩
  | some node =>
    dsimp only
    set copy := node.copy env ctx.nextIdent
    set put : Ctx := { ctx.modifyGraph (fun g => g.putNode (t ++ path.drop s.length) copy) with
      nextIdent := ctx.nextIdent + 1 }
    have hsymbols : put.graph.symbols = ctx.graph.symbols := rfl
    have hedges : put.graph.edges = ctx.graph.edges := rfl
    have hg : (put.increfAll (copy.producerChecksums ++ copy.currentChecksum.toList)).graph =
      put.graph := graph_increfAll _ _
    split
    · rename_i code _
      have hc : ((put.increfAll (copy.producerChecksums ++ copy.currentChecksum.toList)).incref
        code).graph = put.graph := hg
      exact ⟨(congrArg ContextGraph.symbols hc).trans hsymbols,
        (congrArg ContextGraph.edges hc).trans hedges⟩
    · exact ⟨(congrArg ContextGraph.symbols hg).trans hsymbols,
        (congrArg ContextGraph.edges hg).trans hedges⟩

theorem names_copyNodes (env : Substrate) (s t : NodePath) (paths : List NodePath) (ctx : Ctx) :
    (paths.foldl (Ctx.copyNode env s t) ctx).graph.symbols = ctx.graph.symbols ∧
      (paths.foldl (Ctx.copyNode env s t) ctx).graph.edges = ctx.graph.edges := by
  induction paths generalizing ctx with
  | nil => exact ⟨rfl, rfl⟩
  | cons path paths ih =>
    have h1 := names_copyNode env s t ctx path
    have h2 := ih (ctx.copyNode env s t path)
    exact ⟨h2.1.trans h1.1, h2.2.trans h1.2⟩

theorem renumber_symbols (g : ContextGraph) (start : Nat) : (g.renumber start).symbols = g.symbols := by
  have loop : ∀ (entries : List (NodePath × Nat)) (g : ContextGraph),
      (entries.foldl (fun g entry => g.updateNode entry.1 fun node =>
        { node with ident := entry.2 }) g).symbols = g.symbols := by
    intro entries
    induction entries with
    | nil => exact fun _ => rfl
    | cons entry entries ih => exact fun g => (ih _).trans (by simp)
  exact loop _ g

/-! ## The invariant -/

/-- The symbols of a graph are in order, and those of an earlier table are still there. -/
structure SymbolsKept (start : SymbolTable) (g : ContextGraph) : Prop where
  grows : Extends start g.symbols
  oneToOne : OneToOne g.symbols
  linked : ∀ edge ∈ g.edges, edge.Linked g.symbols

variable {start : SymbolTable} {g g' : ContextGraph}

theorem SymbolsKept.interns (h : SymbolsKept start g) (hi : Interns g g')
    (he : ∀ edge ∈ g'.edges, edge ∈ g.edges ∨ edge.Linked g'.symbols) : SymbolsKept start g' where
  grows := h.grows.trans hi.grows
  oneToOne := hi.oneToOne h.oneToOne
  linked edge hm := by
    rcases he edge hm with hm | hl
    · exact (h.linked edge hm).extends hi.grows
    · exact hl

/-- A change that keeps the table and adds no edge. -/
theorem SymbolsKept.shrinks (h : SymbolsKept start g) (hs : g'.symbols = g.symbols)
    (he : ∀ edge ∈ g'.edges, edge ∈ g.edges) : SymbolsKept start g' :=
  h.interns (.of_eq hs) fun edge hm => Or.inl (he edge hm)

theorem SymbolsKept.append {env : Substrate} {edge edge' : Edge} (h : SymbolsKept start g)
    (hp : edge.Prelinked g.symbols) (hr : g.registerEdgeSymbols env edge = some (edge', g')) :
    SymbolsKept start { g' with edges := g.edges ++ [edge'] } := by
  obtain ⟨hi, hl⟩ := registerEdgeSymbols_linked hp hr
  have hi' : Interns g { g' with edges := g.edges ++ [edge'] } := ⟨hi.grows, hi.oneToOne⟩
  refine h.interns hi' fun e hm => ?_
  rcases List.mem_append.mp hm with hm | hm
  · exact Or.inl hm
  · rw [List.mem_singleton.mp hm]
    exact Or.inr hl

/-- The invariant of a Context. -/
def Ctx.SymbolsKept (start : SymbolTable) (ctx : Ctx) : Prop :=
  SeamlessWorkflow.SymbolsKept start ctx.graph

theorem keeps_appendEdge (env : Substrate) {edge : Edge} {P : SymbolTable → Prop}
    (hp : ∀ table, P table → edge.Prelinked table) :
    Triple (fun ctx => ctx.SymbolsKept start ∧ P ctx.graph.symbols) (appendEdge env edge)
      (fun _ => Ctx.SymbolsKept start) (Ctx.SymbolsKept start) := by
  refine Triple.get_bind fun ctx => ?_
  cases hr : ctx.graph.registerEdgeSymbols env edge with
  | none => exact Triple.throw fun _ hc => hc.2.1
  | some r =>
    refine Triple.modify fun ctx' hc => ?_
    obtain ⟨rfl, hc, hP⟩ := hc
    have := hc.append (hp _ hP) hr
    rw [← (ContextGraph.registerEdgeSymbols_spec hr).1.edges] at this
    exact this

theorem keeps_copyEdge (env : Substrate) (s t : NodePath) (edge : Edge) :
    Keeps (Ctx.SymbolsKept start) (copyEdge env s t edge) := by
  refine Triple.ite (fun hchain => ?_) fun _ => Keeps.bind (keeps_resolve _) fun source => ?_
  · refine (keeps_appendEdge env (P := fun _ => True) fun table _ =>
      prelinked_nil table rfl).conseq (fun _ hc => ⟨hc, trivial⟩) (fun _ _ h => h) fun _ h => h
  · refine Triple.get_bind fun ctx => ?_
    set chain := ctx.graph.assignChain env source.1
      (edge.sourceChain.map fun recipe => (recipe.celltype, recipe.path)) with hchain
    obtain ⟨hi, final, hl⟩ := assignChainFrom_interns env
      (edge.sourceChain.map fun recipe => (recipe.celltype, recipe.path)) ctx.graph (.node source.1)
    refine Triple.bind (R := fun _ ctx' => ctx'.SymbolsKept start ∧
      Links ctx'.graph.symbols (.node source.1) chain.1 final)
      (Triple.modify fun ctx' hc => ?_) fun _ => ?_
    · obtain ⟨rfl, hc⟩ := hc
      have hsame := ContextGraph.sameGraph_assignChainFrom env
        (edge.sourceChain.map fun recipe => (recipe.celltype, recipe.path)) ctx'.graph (.node source.1)
      refine ⟨hc.interns hi fun e he => Or.inl ?_, hl⟩
      rwa [← hsame.edges]
    · exact keeps_appendEdge env (P := fun table => Links table (.node source.1) chain.1 final)
        fun table hl => ⟨source.1, chain.1, final, hl, Or.inl rfl⟩

/-- The symbols survive every change; a loaded graph has to have them in order. -/
theorem symbols_upheld (env : Substrate) (start : SymbolTable) :
    Upheld env (fun _ _ _ _ => True) (fun _ _ _ => True) (SymbolsKept start) (fun _ => True)
      (Ctx.SymbolsKept start) (Ctx.SymbolsKept start) where
  weaken h := h
  steady hf h := SymbolsKept.shrinks h hf.symbols fun _ he => hf.edges.subset he
  steady_mid hf h := SymbolsKept.shrinks h hf.symbols fun _ he => hf.edges.subset he
  forget path h := SymbolsKept.shrinks h (by simp [Ctx.modifyGraph]) fun _ he => by
    simpa [Ctx.modifyGraph] using he
  release _ _ h := SymbolsKept.shrinks h (frame_replaceCurrentChecksum env _ none _).symbols
    fun _ he => (frame_replaceCurrentChecksum env _ none _).edges.subset he
  sync {ctx} h := by
    unfold Ctx.SymbolsKept
    rw [(tableOnly_sync ctx).graph]
    exact h
  create _ _ _ h := SymbolsKept.shrinks h rfl fun _ he => he
  append he hr h := by
    have := SymbolsKept.append h (prelinked_nil _ he) hr
    rw [← (ContextGraph.registerEdgeSymbols_spec hr).1.edges] at this
    exact this
  derive {ctx sorted} _ _ h := by
    have hi := (frame_beginDerivation ctx).interns.trans
      (interns_deriveGraph env sorted ctx.beginDerivation)
    refine SymbolsKept.interns h hi fun edge he => Or.inl ?_
    rwa [edges_deriveGraph] at he
  raised {ctx sorted raised} hraised _ h := by
    have hi := (frame_beginDerivation ctx).interns.trans (interns_graphRaises hraised)
    refine SymbolsKept.interns h hi fun edge he => Or.inl ?_
    have hedges : raised.graph.edges = ctx.graph.edges := congrArg Durable.edges
      ((Ctx.durable_graphRaises hraised).trans (Ctx.durable_beginDerivation ctx))
    exact hedges ▸ he
  remove {ctx} path node h := by
    unfold Ctx.SymbolsKept
    rw [graph_dropRuns]
    have hf := frame_releaseNode path node (ctx.modifyGraph fun g => g.eraseNode path)
    exact SymbolsKept.shrinks h hf.symbols fun edge he => hf.edges.subset he
  convert {ctx} path celltype h := by
    refine SymbolsKept.shrinks h ?_ fun edge he => ?_
    · refine (ContextGraph.updateNode_symbols _ path _).trans ?_
      have hsame : ((ctx.dropRuns path).graph.replaceEdgesTo path).symbols =
        (ctx.dropRuns path).graph.symbols := rfl
      exact hsame.trans (congrArg ContextGraph.symbols (graph_dropRuns path ctx))
    · have he := (ContextGraph.updateNode_edges ((ctx.dropRuns path).graph.replaceEdgesTo path) path
        (Node.toCell celltype)) ▸ he
      rw [graph_dropRuns] at he
      exact List.mem_of_mem_filter he
  started identity _ h := by
    unfold Ctx.SymbolsKept
    rw [graph_updateRun]
    exact h
  delivered identity result error _ h := by
    unfold Ctx.SymbolsKept
    rw [graph_updateRun]
    exact h
  dropQueued path dropped h := by
    unfold Ctx.SymbolsKept
    rw [graph_dropQueued]
    exact h
  pruneRuns selected h := by
    unfold Ctx.SymbolsKept
    rw [graph_pruneRuns]
    exact h
  dropCurrent path h := by
    unfold Ctx.SymbolsKept
    rw [graph_dropCurrentRun]
    exact h
  copyNodes _ _ _ h := SymbolsKept.shrinks h (names_copyNodes env _ _ _ _).1 fun edge he => by
    rwa [(names_copyNodes env _ _ _ _).2] at he
  copyEdge s t edge _ _ := (keeps_copyEdge env s t edge).conseq (fun _ h => h.1) (fun _ _ h => h) fun _ h => h
  load hl _ := SymbolsKept.shrinks hl (renumber_symbols _ _) fun edge he => by
    rwa [show (Ctx.replaceGraph _ _ _).graph.edges = _ from renumber_edges _ _] at he
  close hl _ := hl

end SeamlessWorkflow
