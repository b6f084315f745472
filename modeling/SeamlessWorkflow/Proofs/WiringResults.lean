import SeamlessWorkflow.Proofs.WiringInvariant
import SeamlessWorkflow.Proofs.Holders

/-!
# What wiring does

`_add_edge` and `_add_endpoint_edge` raise before they change anything, or they join their end points
and derive. A derivation that raises poisons the Context.
-/

namespace SeamlessWorkflow

open Program

/-- What a program does in the states of a set. -/
theorem triple_result {P : Ctx → Prop} {α : Type} (program : M α) :
    Triple P program (fun a ctx' => ∃ ctx, P ctx ∧ program ctx = .ok a ctx')
      fun ctx' => ∃ ctx e, P ctx ∧ program ctx = .error e ctx' := by
  intro ctx hctx
  cases hr : program ctx with
  | ok a ctx' => exact ⟨ctx, hctx, hr⟩
  | error e ctx' => exact ⟨ctx, e, hctx, hr⟩

/-! ## Derivation -/

/-- Nothing stops a derivation: the node paths compare, the sources of the edges resolve, and no edge
ends at a transformer itself. -/
@[mk_iff]
structure Ctx.Derivable (ctx : Ctx) : Prop where
  sorted : (sortPaths ctx.graph.nodes.keys).isSome = true
  sources : ∀ edge ∈ ctx.graph.edges, (ctx.graph.resolveExisting edge.source).isSome = true
  parts : ctx.graph.EndsAtParts

instance (ctx : Ctx) : Decidable ctx.Derivable := decidable_of_iff' _ ctx.derivable_iff

theorem ContextGraph.ownLink_source (g : ContextGraph) (edge : Edge) :
    (g.ownLink edge).source = edge.source := by
  unfold ownLink
  split <;> rfl

theorem ContextGraph.ownLink_target (g : ContextGraph) (edge : Edge) :
    (g.ownLink edge).target = edge.target := by
  unfold ownLink
  split <;> rfl

/-- An incoming edge is an edge of the graph, as its target derives it. -/
theorem ContextGraph.mem_incomingFor {g : ContextGraph} {path : NodePath} {entry : Path × Edge}
    (h : entry ∈ g.incomingFor path) : ∃ edge ∈ g.edges, entry.2 = g.ownLink edge ∧
      g.resolveExisting edge.target = some (path, entry.1) := by
  have loop : ∀ (edges : List Edge) (acc : List (Path × Edge)),
      entry ∈ edges.foldl (g.incomingStep path) acc → entry ∈ acc ∨ ∃ edge ∈ edges,
        entry.2 = g.ownLink edge ∧ g.resolveExisting edge.target = some (path, entry.1) := by
    intro edges
    induction edges with
    | nil => exact fun acc h => Or.inl h
    | cons edge edges ih =>
      intro acc h
      rcases ih _ h with hm | ⟨e, he, hs⟩
      · unfold incomingStep at hm
        split at hm
        · rename_i n l hr
          split at hm
          · rename_i hn
            rcases Dict.mem_setItem hm with rfl | hm
            · exact Or.inr ⟨edge, List.mem_cons_self .., rfl, hn ▸ hr⟩
            · exact Or.inl hm
          · exact Or.inl hm
        · exact Or.inl hm
      · exact Or.inr ⟨e, List.mem_cons_of_mem _ he, hs⟩
  rcases loop _ _ h with hm | hm
  · exact absurd hm List.not_mem_nil
  · exact hm

theorem ContextGraph.endsAtTransformer_of_nodes {g g' : ContextGraph} (h : g'.nodes = g.nodes)
    (edge : Edge) : g'.endsAtTransformer edge = g.endsAtTransformer edge := by
  unfold endsAtTransformer
  rw [resolveExisting_of_nodes h, h]

theorem Ctx.Derivable.sourcesResolve {ctx : Ctx} (h : ctx.Derivable) :
    Ctx.sourcesResolve ctx.graph = true := by
  unfold Ctx.sourcesResolve
  refine List.all_eq_true.mpr fun path _ => List.all_eq_true.mpr fun entry he => ?_
  obtain ⟨edge, hm, hentry, -⟩ := ContextGraph.mem_incomingFor he
  rw [hentry, ContextGraph.ownLink_source]
  exact h.sources edge hm

/-- A derivation raises on a graph that cannot be derived only, and then it poisons the Context. -/
theorem deriveAll_error {env : Substrate} {ctx ctx' : Ctx} {e : Error}
    (h : deriveAll env ctx = .error e ctx') : ¬ ctx.Derivable ∧ ctx'.durable = ctx.durable := by
  unfold deriveAll at h
  simp only [bind, EStateM.bind, get, getThe, MonadStateOf.get, set] at h
  delta EStateM.get at h
  dsimp only at h
  cases hs : sortPaths ctx.graph.nodes.keys with
  | none =>
    rw [hs] at h
    refine ⟨fun hd => ?_, ?_⟩
    · have := hd.sorted
      rw [hs] at this
      cases this
    · cases h
      rw [Ctx.durable_poison, Ctx.durable_beginDerivation]
  | some sorted =>
    rw [hs] at h
    cases hr : Ctx.sourcesResolve ctx.graph with
    | true =>
      rw [hr] at h
      dsimp only at h
      cases hg : ctx.beginDerivation.graphRaises env sorted with
      | none => rw [hg] at h; cases h
      | some raised =>
        rw [hg] at h
        cases h
        refine ⟨fun hd => ?_, ?_⟩
        · have hparts := hd.parts
          rw [← graph_beginDerivation ctx] at hparts
          cases hg.symm.trans (nodesRaise_eq_none hparts _)
        · rw [Ctx.durable_poison, Ctx.durable_unsettle, Ctx.durable_graphRaises hg,
            Ctx.durable_beginDerivation]
    | false =>
      rw [hr] at h
      refine ⟨fun hd => ?_, ?_⟩
      · have := hd.sourcesResolve
        rw [hr] at this
        cases this
      · cases h
        rw [Ctx.durable_poison, Ctx.durable_beginDerivation]

theorem deriveAll_ok {env : Substrate} {ctx ctx' : Ctx} {u : Unit}
    (h : deriveAll env ctx = .ok u ctx') : ∃ sorted, sortPaths ctx.graph.nodes.keys = some sorted ∧
      Ctx.sourcesResolve ctx.graph = true ∧ ctx' = ctx.beginDerivation.deriveGraph env sorted := by
  unfold deriveAll at h
  simp only [bind, EStateM.bind, get, getThe, MonadStateOf.get, set] at h
  delta EStateM.get at h
  dsimp only at h
  cases hs : sortPaths ctx.graph.nodes.keys with
  | none => rw [hs] at h; cases h
  | some sorted =>
    rw [hs] at h
    cases hr : Ctx.sourcesResolve ctx.graph with
    | true =>
      rw [hr] at h
      dsimp only at h
      cases hg : ctx.beginDerivation.graphRaises env sorted with
      | none =>
        rw [hg] at h
        cases h
        exact ⟨sorted, rfl, rfl, rfl⟩
      | some raised => rw [hg] at h; cases h
    | false => rw [hr] at h; cases h

theorem durable_deriveAll {env : Substrate} {ctx ctx' : Ctx} {u : Unit}
    (h : deriveAll env ctx = .ok u ctx') : ctx'.durable = ctx.durable := by
  obtain ⟨sorted, -, -, rfl⟩ := deriveAll_ok h
  rw [Ctx.durable_deriveGraph, Ctx.durable_beginDerivation]

/-! ## Edges -/

/-- The edge that a recipe describes, between two places. -/
structure EdgeRecipe.Describes (recipe : EdgeRecipe) (source target : Place) (edge : Edge) : Prop where
  sourcePlace : edge.sourcePlace = source
  targetPlace : edge.targetPlace = target
  sourceCelltype : edge.sourceCelltype = recipe.sourceCelltype
  conversion : edge.sourceConversion = recipe.conversion
  conversionBefore : edge.sourceConversionBefore = recipe.conversionBefore
  conversionSteps : edge.sourceConversionSteps = recipe.conversionSteps

theorem EdgeRecipe.Describes.source_eq {recipe : EdgeRecipe} {source target : Place} {edge : Edge}
    (h : recipe.Describes source target edge) : edge.source = source.flat :=
  edge.sourceFlat.trans (congrArg Place.flat h.sourcePlace)

theorem EdgeRecipe.Describes.target_eq {recipe : EdgeRecipe} {source target : Place} {edge : Edge}
    (h : recipe.Describes source target edge) : edge.target = target.flat :=
  edge.targetFlat.trans (congrArg Place.flat h.targetPlace)

/-- The edges at and below a target are replaced by a new one. -/
structure Joins (ctx : Ctx) (source target : Place) (recipe : EdgeRecipe) (next : Ctx) : Prop where
  nodes : next.graph.nodes = ctx.graph.nodes
  edges : ∃ n l edge, ctx.graph.resolveExisting target.flat = some (n, l) ∧
    (ctx.graph.resolveExisting source.flat).isSome = true ∧ recipe.Describes source target edge ∧
      next.graph.edges = (ctx.graph.removeEdgesTargeting n l true).edges ++ [edge]

theorem Joins.derivable {ctx next : Ctx} {source target : Place} {recipe : EdgeRecipe}
    (h : Joins ctx source target recipe next) (hd : ctx.Derivable)
    (htarget : ∀ path, ctx.graph.resolveExisting target.flat = some (path, []) →
      (ctx.node? path).map Node.isCell = some true) : next.Derivable := by
  obtain ⟨n, l, edge, -, hs, hdescribes, hedges⟩ := h.edges
  refine ⟨by rw [h.nodes]; exact hd.sorted, fun e he => ?_, fun e he => ?_⟩
  · rw [ContextGraph.resolveExisting_of_nodes h.nodes]
    rw [hedges] at he
    rcases List.mem_append.mp he with he | he
    · exact hd.sources e (List.mem_filter.mp he).1
    · rw [List.mem_singleton.mp he, hdescribes.source_eq]
      exact hs
  · rw [ContextGraph.endsAtTransformer_of_nodes h.nodes]
    rw [hedges] at he
    rcases List.mem_append.mp he with he | he
    · exact hd.parts e (List.mem_filter.mp he).1
    · rw [List.mem_singleton.mp he]
      exact ContextGraph.endsAtTransformer_of_cell (hdescribes.target_eq ▸ htarget)

/-- `_add_edge` raises without a change, or joins its end points and derives. -/
theorem addEdge_result (env : Substrate) (source target : Place) (recipe : EdgeRecipe)
    (detach : Bool) (start : Ctx) :
    Triple (· = start) (addEdge env source target recipe detach)
      (fun _ ctx => ∃ next, Joins start source target recipe next ∧ deriveAll env next = .ok () ctx)
      fun ctx => ctx = start ∨
        ∃ next e, Joins start source target recipe next ∧ deriveAll env next = .error e ctx := by
  refine Triple.inspect (inspects_resolve _) (fun _ hc => Or.inl hc) fun s => ?_
  refine Triple.inspect (inspects_resolve _) (fun _ hc => Or.inl hc.1) fun t => ?_
  refine Triple.inspect (inspects_checkEdge s.1 t.1 t.2 detach) (fun _ hc => Or.inl hc.1.1) fun _ => ?_
  refine Triple.inspect (inspects_nodeAt t.1) (fun _ hc => Or.inl hc.1.1.1) fun node => ?_
  refine Triple.bind (R := fun _ ctx => start.graph.resolveExisting source.flat = some s ∧
    start.graph.resolveExisting target.flat = some (t.1, t.2) ∧
      ctx = start.modifyGraph fun g => g.removeEdgesTargeting t.1 t.2 true)
    (Triple.modify fun ctx hc => ?_) fun _ => ?_
  · obtain ⟨⟨⟨⟨rfl, hs⟩, ht⟩, -⟩, -⟩ := hc
    exact ⟨hs, ht, rfl⟩
  refine Triple.bind (R := fun _ ctx => Joins start source target recipe ctx) ?_ fun _ =>
    (triple_result (deriveAll env)).conseq (fun _ hc => hc)
      (fun _ ctx ⟨next, hj, hd⟩ => ⟨next, hj, hd⟩) fun ctx ⟨next, e, hj, hd⟩ => Or.inr ⟨next, e, hj, hd⟩
  refine Triple.get_bind fun ctx => ?_
  refine Triple.assume (fun ctx' hc => hc.1 ▸ hc.2) fun hctx => ?_
  obtain ⟨hs, ht, rfl⟩ := hctx
  generalize hedge : ({ source := source.flat, target := target.flat
                        sourceCelltype := recipe.sourceCelltype
                        sourceConversion := recipe.conversion
                        sourceConversionBefore := recipe.conversionBefore
                        sourceConversionSteps := recipe.conversionSteps
                        deepMember := t.2 ≠ [] && node.isCell && node.celltype.isDeep
                        sourcePlace := source, targetPlace := target } : Edge) = edge
  cases hr : (start.modifyGraph fun g => g.removeEdgesTargeting t.1 t.2 true).graph.registerEdgeSymbols
      env edge with
  | none =>
    -- the source has just been resolved
    refine absurd hr ?_
    subst hedge
    unfold ContextGraph.registerEdgeSymbols
    have hs' : (start.modifyGraph fun g =>
        g.removeEdgesTargeting t.1 t.2 true).graph.resolveExisting source.flat = some s := hs
    rw [hs']
    dsimp only
    rw [if_neg (by simp)]
    split <;> simp
  | some r =>
    obtain ⟨edge', graph⟩ := r
    obtain ⟨hg, chain, rfl⟩ := ContextGraph.registerEdgeSymbols_spec hr
    refine Triple.modify fun ctx hc => ?_
    refine ⟨hg.nodes, t.1, t.2, { edge with sourceChain := chain }, ht, by rw [hs]; rfl, ?_, ?_⟩
    · subst hedge
      exact ⟨rfl, rfl, rfl, rfl, rfl, rfl⟩
    · show graph.edges ++ _ = _
      rw [hg.edges]
      rfl

/-- `_add_endpoint_edge` raises without a change, or joins its end points and derives. -/
theorem addEndpointEdge_result (env : Substrate) (source target : BoundEndpoint) (detach : Bool)
    (start : Ctx) :
    Triple (· = start) (addEndpointEdge env source target detach)
      (fun _ ctx => ∃ next derived, Joins start source.place target.place source.recipe next ∧
        deriveAll env next = .ok () derived ∧ dropReplaced target derived = .ok () ctx)
      fun ctx => ctx = start ∨ ∃ next derived e,
        Joins start source.place target.place source.recipe next ∧
          (deriveAll env next = .error e ctx ∨
            deriveAll env next = .ok () derived ∧ dropReplaced target derived = .error e ctx) := by
  refine Triple.inspect (inspects_refuseIf _ _ _) (fun _ hc => Or.inl hc) fun _ => ?_
  refine Triple.inspect (inspects_refuseIf _ _ _) (fun _ hc => Or.inl hc.1) fun _ => ?_
  refine Triple.inspect (inspects_of_keeps fun P => keeps_checkDeepLink _ _ _)
    (fun _ hc => Or.inl hc.1.1) fun _ => ?_
  refine Triple.inspect (inspects_checkTarget _ _ _) (fun _ hc => Or.inl hc.1.1.1) fun _ => ?_
  refine Triple.bind ((addEdge_result env source.place target.place source.recipe detach
    start).conseq (fun _ hc => hc.1.1.1.1) (fun _ _ hc => hc) fun ctx hc => ?_) fun _ => ?_
  · rcases hc with hc | ⟨next, e, hj, hd⟩
    · exact Or.inl hc
    · exact Or.inr ⟨next, ctx, e, hj, Or.inl hd⟩
  · refine (triple_result (dropReplaced target)).conseq (fun _ hc => hc) (fun _ ctx hc => ?_)
      fun ctx hc => ?_
    · obtain ⟨derived, ⟨next, hj, hd⟩, hdrop⟩ := hc
      exact ⟨next, derived, hj, hd, hdrop⟩
    · obtain ⟨derived, e, ⟨next, hj, hd⟩, hdrop⟩ := hc
      exact Or.inr ⟨next, derived, e, hj, Or.inr ⟨hd, hdrop⟩⟩

end SeamlessWorkflow
