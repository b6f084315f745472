import SeamlessWorkflow.Proofs.Moves

/-!
# The moves of wiring

Adding an edge drops the edges at and below its target and then connects, and the checks before it
are the guards of the new edge.
-/

namespace SeamlessWorkflow

open Program Relation

/-- A chain starts at a node, and each link behind the first one reads a symbol. -/
structure StartsAt (chain : List Recipe) (node : NodePath) : Prop where
  head : ∀ recipe ∈ chain.head?, recipe.source = .node node
  behind : ∀ recipe ∈ chain.tail, ∃ name, recipe.source = .symbol name

namespace ContextGraph

/-- Resolution depends on the node paths only. -/
theorem resolveExisting_congr {g g' : ContextGraph} (h : ∀ p, p ∈ g'.nodes ↔ p ∈ g.nodes) :
    g'.resolveExisting = g.resolveExisting := by
  funext viewPath
  unfold resolveExisting
  simp only [h]

theorem resolveExisting_of_nodes {g g' : ContextGraph} (h : g'.nodes = g.nodes) :
    g'.resolveExisting = g.resolveExisting := resolveExisting_congr fun p => by rw [h]

/-- Fewer edges have fewer cycles. -/
theorem wouldCycle_mono {g g' : ContextGraph} (hnodes : g'.nodes = g.nodes)
    (hedges : g'.edges ⊆ g.edges) {s t : NodePath} (h : g.wouldCycle s t = false) :
    g'.wouldCycle s t = false := by
  have hnodes' : g'.edgeNodes = g.edgeNodes := by
    funext edge
    unfold edgeNodes
    rw [resolveExisting_of_nodes hnodes]
  by_contra hc
  rw [Bool.not_eq_false] at hc
  refine absurd (Reach.reaches_iff.mpr ?_) (by simpa [wouldCycle] using h)
  refine (Reach.reaches_iff.mp hc).lift id fun a b hab => ?_
  obtain ⟨edge, hedge, hab⟩ := List.mem_filterMap.mp hab
  exact List.mem_filterMap.mpr ⟨edge, hedges hedge, hnodes' ▸ hab⟩

theorem exists_incomingStep (g : ContextGraph) (path : NodePath) (acc : List (Path × Edge))
    (edge : Edge) (l : Path) : (∃ entry ∈ g.incomingStep path acc edge, entry.1 = l) ↔
      g.resolveExisting edge.target = some (path, l) ∨ ∃ entry ∈ acc, entry.1 = l := by
  unfold incomingStep
  cases h : g.resolveExisting edge.target with
  | none => simp
  | some r =>
    obtain ⟨n, k⟩ := r
    by_cases hn : n = path
    · subst hn
      simp only [if_true, Dict.exists_setItem, Option.some.injEq, Prod.mk.injEq, true_and]
    · simp [hn]

/-- The incoming edges of a node are the edges that resolve to it. -/
theorem exists_incomingFor (g : ContextGraph) (path : NodePath) (l : Path) :
    (∃ entry ∈ g.incomingFor path, entry.1 = l) ↔
      ∃ edge ∈ g.edges, g.resolveExisting edge.target = some (path, l) := by
  have loop : ∀ (edges : List Edge) (acc : List (Path × Edge)),
      (∃ entry ∈ edges.foldl (g.incomingStep path) acc, entry.1 = l) ↔
        (∃ edge ∈ edges, g.resolveExisting edge.target = some (path, l)) ∨
          ∃ entry ∈ acc, entry.1 = l := by
    intro edges
    induction edges with
    | nil => intro acc; simp
    | cons edge edges ih =>
      intro acc
      rw [List.foldl_cons, ih, exists_incomingStep]
      simp only [List.mem_cons, exists_eq_or_imp]
      rw [or_assoc, or_left_comm]
  rw [incomingFor, loop]
  simp

/-- Registering symbols changes the symbols only. -/
structure SameGraph (g g' : ContextGraph) : Prop where
  nodes : g'.nodes = g.nodes
  edges : g'.edges = g.edges
  namespaces : g'.namespaces = g.namespaces

theorem SameGraph.trans {a b c : ContextGraph} (h : SameGraph a b) (h' : SameGraph b c) :
    SameGraph a c :=
  ⟨h'.nodes.trans h.nodes, h'.edges.trans h.edges, h'.namespaces.trans h.namespaces⟩

theorem sameGraph_assignSymbol (env : Substrate) (g : ContextGraph) (recipe : Recipe) :
    SameGraph g (g.assignSymbol env recipe).2 := ⟨by simp, by simp, by simp⟩

theorem sameGraph_assignChainFrom (env : Substrate) (links : List Link) :
    ∀ (g : ContextGraph) (source : RecipeSource),
      SameGraph g (g.assignChainFrom env source links).2 := by
  induction links with
  | nil => exact fun g _ => ⟨rfl, rfl, rfl⟩
  | cons link links ih =>
    intro g source
    exact (sameGraph_assignSymbol env g _).trans (ih _ _)

theorem registerEdgeSymbols_spec {env : Substrate} {g g' : ContextGraph} {edge edge' : Edge}
    (h : g.registerEdgeSymbols env edge = some (edge', g')) :
    SameGraph g g' ∧ ∃ chain, edge' = { edge with sourceChain := chain } := by
  unfold registerEdgeSymbols at h
  split at h
  · obtain ⟨rfl, rfl⟩ := Prod.mk.injEq .. |>.mp (Option.some.inj h)
    refine ⟨?_, edge.sourceChain, rfl⟩
    have loop : ∀ (chain : List Recipe) (g : ContextGraph),
        SameGraph g (chain.foldl (fun g recipe => (g.assignSymbol env recipe).2) g) := by
      intro chain
      induction chain with
      | nil => exact fun _ => ⟨rfl, rfl, rfl⟩
      | cons recipe chain ih => exact fun g => (sameGraph_assignSymbol env g recipe).trans (ih _)
    exact loop _ _
  · split at h
    · exact absurd h (by simp)
    · dsimp only at h
      split at h
      · obtain ⟨rfl, rfl⟩ := Prod.mk.injEq .. |>.mp (Option.some.inj h)
        exact ⟨⟨rfl, rfl, rfl⟩, edge.sourceChain, rfl⟩
      · obtain ⟨rfl, rfl⟩ := Prod.mk.injEq .. |>.mp (Option.some.inj h)
        exact ⟨sameGraph_assignChainFrom env _ _ _, _, rfl⟩

/-- An edge that comes with a chain keeps it. -/
theorem register_chained {env : Substrate} {g g' : ContextGraph} {edge edge' : Edge}
    (hchain : edge.sourceChain ≠ []) (h : g.registerEdgeSymbols env edge = some (edge', g')) :
    edge' = edge := by
  unfold registerEdgeSymbols at h
  rw [if_pos hchain] at h
  exact (Prod.mk.inj (Option.some.inj h)).1.symm

/-- A chain records the links that it is assigned for. -/
theorem links_assignChainFrom (env : Substrate) (links : List Link) :
    ∀ (g : ContextGraph) (source : RecipeSource),
      (g.assignChainFrom env source links).1.map Recipe.link = links := by
  induction links with
  | nil => exact fun _ _ => rfl
  | cons link links ih =>
    intro g source
    obtain ⟨celltype, path⟩ := link
    exact congrArg ((celltype, path) :: ·) (ih _ _)

theorem symbols_assignChainFrom (env : Substrate) (links : List Link) :
    ∀ (g : ContextGraph) (name : String), ∀ recipe ∈ (g.assignChainFrom env (.symbol name) links).1,
      ∃ name, recipe.source = .symbol name := by
  induction links with
  | nil => exact fun _ _ _ h => nomatch h
  | cons link links ih =>
    intro g name recipe h
    rcases List.mem_cons.mp h with rfl | h
    · exact ⟨name, rfl⟩
    · exact ih _ _ recipe h

/-- A chain starts at the node that it is assigned for. -/
theorem startsAt_assignChain (env : Substrate) (g : ContextGraph) (node : NodePath)
    (links : List Link) : StartsAt (g.assignChain env node links).1 node := by
  cases links with
  | nil => constructor <;> exact fun _ h => nomatch h
  | cons link links =>
    refine ⟨fun _ h => ?_, symbols_assignChainFrom env links _ _⟩
    rw [← Option.some.inj h]

/-- The chain of an edge records the links of its recipe, from the node that its source resolves to. -/
structure Registers (g : ContextGraph) (edge : Edge) (node : NodePath) (localPath : Path) : Prop where
  resolved : g.resolveExisting edge.source = some (node, localPath)
  starts : StartsAt edge.sourceChain node
  links : edge.sourceChain.map Recipe.link = anonymousLinks (g.nodeCelltype node) localPath
    (conversionSteps edge localPath (edge.sourceCelltype.getD (g.nodeCelltype node)))

theorem Registers.congr {g g' : ContextGraph} {edge : Edge} {node : NodePath} {localPath : Path}
    (h : g.Registers edge node localPath) (hresolve : g'.resolveExisting = g.resolveExisting)
    (hcelltype : g'.nodeCelltype = g.nodeCelltype) : g'.Registers edge node localPath where
  resolved := hresolve ▸ h.resolved
  starts := h.starts
  links := hcelltype ▸ h.links

/-- An edge that comes without a chain gets the one of its recipe. -/
theorem registers_of_register {env : Substrate} {g g' : ContextGraph} {edge edge' : Edge}
    (hchain : edge.sourceChain = []) (h : g.registerEdgeSymbols env edge = some (edge', g')) :
    ∃ node localPath, g.Registers edge' node localPath := by
  unfold registerEdgeSymbols at h
  rw [if_neg (not_not.mpr hchain)] at h
  split at h
  · cases h
  · rename_i node localPath hresolve
    dsimp only at h
    split at h
    · rename_i hlinks
      obtain ⟨rfl, rfl⟩ := Prod.mk.injEq .. |>.mp (Option.some.inj h)
      refine ⟨node, localPath, hresolve, ?_, ?_⟩
      · rw [hchain]
        exact startsAt_assignChain env g node []
      · rw [hchain]
        exact hlinks.symm
    · obtain ⟨rfl, rfl⟩ := Prod.mk.injEq .. |>.mp (Option.some.inj h)
      exact ⟨node, localPath, hresolve, startsAt_assignChain env g _ _,
        links_assignChainFrom env _ g _⟩

end ContextGraph

/-! ## Adding an edge -/

/-- The checks of `_add_edge` on an edge between these nodes. -/
structure EdgeChecked (ctx : Ctx) (s t : NodePath) (tl : Path) : Prop where
  distinct : s ≠ t
  forward : ctx.graph.wouldCycle s t = false
  alone : (ctx.node? t).map Node.isCell = some true → ∀ other ∈ ctx.graph.edges, ∀ l,
    ctx.graph.resolveExisting other.target = some (t, l) → (tl = [] ↔ l = [])

theorem lookup_isSome_iff {κ ν : Type} [BEq κ] [LawfulBEq κ] {d : List (κ × ν)} {k : κ} :
    (d.lookup k).isSome = true ↔ ∃ e ∈ d, e.1 = k := by
  induction d with
  | nil => simp
  | cons e d ih =>
    obtain ⟨a, b⟩ := e
    by_cases h : a = k
    · subst h
      simp
    · have h' : (k == a) = false := by simpa using fun h' => h h'.symm
      simp [List.lookup_cons, h', ih, h]

theorem mixesRoot_alone {ctx : Ctx} {t : NodePath} {tl : Path}
    (h : mixesRoot (ctx.graph.incomingFor t) tl = false) :
    ∀ other ∈ ctx.graph.edges, ∀ l, ctx.graph.resolveExisting other.target = some (t, l) →
      (tl = [] ↔ l = []) := by
  intro other hother l hr
  obtain ⟨entry, hentry, rfl⟩ := (ctx.graph.exists_incomingFor t l).mpr ⟨other, hother, hr⟩
  unfold mixesRoot at h
  by_cases htl : tl = []
  · rw [if_pos htl, List.any_eq_false] at h
    have := h entry hentry
    simp only [decide_not, Bool.not_eq_true, Bool.not_eq_false', decide_eq_true_eq] at this
    simp [htl, this]
  · rw [if_neg htl] at h
    have : entry.1 ≠ [] := fun hnil => by
      have := lookup_isSome_iff.mpr ⟨entry, hentry, hnil⟩
      rw [h] at this
      exact absurd this (by simp)
    simp [htl, this]

theorem inspects_checkEdge (s t : NodePath) (tl : Path) (detach : Bool) :
    Inspects (checkEdge s t tl detach) fun _ ctx => EdgeChecked ctx s t tl := by
  refine Inspects.get_bind fun ctx => ?_
  refine Inspects.bind (inspects_nodeAt t) fun node => ?_
  refine Inspects.bind (inspects_refuseIf _ _ _) fun _ => ?_
  refine Inspects.bind (inspects_refuseIf _ _ _) fun _ => ?_
  refine Inspects.bind (inspects_refuseIf _ _ _) fun _ => ?_
  refine Inspects.bind (inspects_refuseIf _ _ _) fun _ => ?_
  have hgoal : ∀ m : M Unit, (∀ P, Triple P m (fun _ => P) P) →
      Inspects m fun _ s' => ¬ctx.graph.wouldCycle s t = true → ¬s = t →
        ¬ctx.hasSensing t = true → ¬(node.isCell = true ∧ mixesRoot (ctx.graph.incomingFor t) tl = true) →
          s'.node? t = some node → s' = ctx → EdgeChecked s' s t tl := by
    intro m hm P
    refine (hm P).conseq (fun _ hs => hs) (fun _ s' hs => ⟨hs, ?_⟩) fun _ hs => hs
    rintro hcycle hst - hmix hnode rfl
    refine ⟨hst, by simpa using hcycle, fun hcell => ?_⟩
    rw [hnode] at hcell
    have hcell' : node.isCell = true := by simpa using hcell
    exact mixesRoot_alone (by simpa [hcell'] using hmix)
  cases detach with
  | true => exact hgoal _ fun P => keeps_validateWrite t tl true
  | false => exact hgoal _ fun P => keeps_checkAuthority t tl

section Moving

variable {env : Substrate} {lim : Limits} {start : Ctx}

theorem moving_removeEdgesTargeting (path : NodePath) (localPath : Path) :
    Keeps (Moves env lim start) (removeEdgesTargeting path localPath) :=
  moving_modify fun _ => .drop _ (.rewire rfl rfl)

/-- The guards of an edge hold once the edges at its target are gone. -/
theorem EdgeChecked.guarded {ctx : Ctx} {edge : Edge} {s t : NodePath} {sl tl : Path} {stray : Prop}
    (h : EdgeChecked ctx s t tl) (hs : ctx.graph.resolveExisting edge.source = some (s, sl))
    (ht : ctx.graph.resolveExisting edge.target = some (t, tl))
    (hshallow : edge.targetPlace.localPath.length ≤ 1)
    (haddressed : edge.targetPlace.node ∈ ctx.graph.nodes ∨ stray) :
    Guarded (ctx.modifyGraph fun g => g.removeEdgesTargeting t tl true) edge stray := by
  have hsub : (ctx.graph.removeEdgesTargeting t tl true).edges ⊆ ctx.graph.edges :=
    fun other hother => (List.mem_filter.mp hother).1
  have hnodes : (ctx.graph.removeEdgesTargeting t tl true).nodes = ctx.graph.nodes := rfl
  have hforward := ContextGraph.wouldCycle_mono hnodes hsub h.forward
  refine ⟨⟨s, sl, t, tl, hs, ht, h.distinct, hforward, fun other hother hr => ?_, ?_⟩, hshallow,
    haddressed⟩
  · have hr' : ctx.graph.resolveExisting other.target = some (t, tl) := hr
    have := (List.mem_filter.mp hother).2
    rw [hr'] at this
    simp at this
  · exact fun hcell other hother => h.alone hcell other (hsub hother)

theorem moving_appendEdge {edge : Edge} (hchain : edge.sourceChain = [])
    (hs : lim.joins edge.sourcePlace) (ht : lim.joins edge.targetPlace)
    (hw : lim.wires edge.sourcePlace edge.targetPlace edge.recipe) :
    Triple (fun ctx => Moves env lim start ctx ∧ Guarded ctx edge lim.stray) (appendEdge env edge)
      (fun _ => Moves env lim start) (Moves env lim start) := by
  refine Triple.get_bind fun ctx => ?_
  cases h : ctx.graph.registerEdgeSymbols env edge with
  | none => exact Triple.throw fun _ hc => hc.2.1
  | some r =>
    obtain ⟨edge', graph⟩ := r
    obtain ⟨hg, chain, rfl⟩ := ContextGraph.registerEdgeSymbols_spec h
    refine Triple.modify fun ctx' hc => ?_
    obtain ⟨rfl, hmoves, hguard⟩ := hc
    have hguard' : Guarded ctx' { edge with sourceChain := chain } lim.stray :=
      ⟨hguard.resolved, hguard.shallow, hguard.addressed⟩
    exact moves_step hmoves (.connect hguard' ⟨hs, ht, hw, edge, graph, hchain, h⟩
      (.rewire hg.nodes (by rw [hg.edges])))

theorem moving_addEdge {source target : Place} {recipe : EdgeRecipe} (hs : lim.joins source)
    (ht : lim.joins target) (hw : lim.wires source target recipe)
    (hshallow : target.localPath.length ≤ 1) (detach : Bool) :
    Triple (fun ctx => Moves env lim start ctx ∧ (target.node ∈ ctx.graph.nodes ∨ lim.stray))
      (addEdge env source target recipe detach) (fun _ => Moves env lim start)
      (Moves env lim start) := by
  refine Triple.inspect (inspects_resolve _) (fun _ hc => hc.1) fun s => ?_
  refine Triple.inspect (inspects_resolve _) (fun _ hc => hc.1.1) fun t => ?_
  refine Triple.inspect (inspects_checkEdge s.1 t.1 t.2 detach) (fun _ hc => hc.1.1.1) fun _ => ?_
  refine Triple.inspect (inspects_nodeAt t.1) (fun _ hc => hc.1.1.1.1) fun node => ?_
  refine Triple.bind (R := fun _ ctx => Moves env lim start ctx ∧ ∀ edge : Edge,
    edge.source = source.flat → edge.target = target.flat → edge.targetPlace = target →
      Guarded ctx edge lim.stray) (Triple.modify fun ctx hc => ?_) fun _ => ?_
  · obtain ⟨⟨⟨⟨⟨hmoves, haddressed⟩, hrs⟩, hrt⟩, hchecked⟩, -⟩ := hc
    refine ⟨moves_step hmoves (.drop _ (.rewire rfl rfl)), ?_⟩
    intro edge hsource htarget hplace
    refine hchecked.guarded (hsource ▸ hrs) (htarget ▸ hrt) (hplace ▸ hshallow) ?_
    rw [hplace]
    exact haddressed
  · refine Triple.bind ((moving_appendEdge rfl ?_ ?_ ?_).conseq (fun ctx hc => ⟨hc.1, ?_⟩)
      (fun _ _ h => h) fun _ h => h) fun _ => moving_deriveAll
    · exact hs
    · exact ht
    · exact hw
    · exact hc.2 _ rfl rfl rfl

theorem moving_retainProducer (checksum : Checksum) (celltype : Celltype) :
    Keeps (Moves env lim start) (retainProducer env checksum celltype) :=
  Keeps.bind (moving_quiet fun ctx => quiet_incref _ ctx) fun _ => Keeps.pure

theorem moving_releaseProducer (producer : Option ConstantProducer) :
    Keeps (Moves env lim start) (releaseProducer producer) :=
  moving_quiet fun ctx => quiet_decrefAll _ ctx

theorem moving_replaceRootProducer (path : NodePath) (producer : Option ConstantProducer) :
    Keeps (Moves env lim start) (replaceRootProducer path producer) := by
  refine Keeps.bind (keeps_nodeAt path) fun node => ?_
  exact Keeps.bind (moving_mapCell path fun _ => rfl) fun _ => moving_releaseProducer _

theorem moving_dropPinProducer (path : NodePath) (pin : String) :
    Keeps (Moves env lim start) (dropPinProducer path pin) := by
  refine Keeps.bind (keeps_nodeAt path) fun node => ?_
  exact Keeps.bind (moving_mapTransformer path fun _ => rfl) fun _ => moving_releaseProducer _

theorem moving_dropReplaced (target : BoundEndpoint) :
    Keeps (Moves env lim start) (dropReplaced target) := by
  refine Keeps.bind (keeps_nodeAt _) fun node => ?_
  refine Keeps.ite (Keeps.ite (moving_replaceRootProducer _ _) Keeps.pure) ?_
  split
  · exact moving_dropPinProducer _ _
  · exact Keeps.pure

/-- A program that keeps everything looks at the state only. -/
theorem inspects_of_keeps {α : Type} {m : M α} (h : ∀ P, Keeps P m) : Inspects m fun _ _ => True :=
  fun P => (h P).conseq (fun _ hs => hs) (fun _ _ hs => ⟨hs, trivial⟩) fun _ hs => hs

/-- A join slot is one step inside its cell. -/
theorem inspects_checkTarget (env : Substrate) (source target : BoundEndpoint) :
    Inspects (checkTarget env source target) fun _ _ =>
      target.kind = .cellSubvalue → target.localPath.length ≤ 1 := by
  by_cases hk : target.kind = .cellSubvalue
  · unfold checkTarget
    rw [hk]
    unfold checkSlot
    match hl : target.localPath with
    | [k] => exact (inspects_of_keeps fun P => by
        have := keeps_checkSlot (I := P) source target
        unfold checkSlot at this
        rwa [hl] at this).conseq fun _ _ _ _ => le_rfl
    | [] => exact inspects_raise _ _
    | _ :: _ :: _ => exact inspects_raise _ _
  · exact (inspects_of_keeps fun P => keeps_checkTarget env source target).conseq
      fun _ _ _ h => absurd h hk

/-- The recipe of the edge of an end point. -/
def BoundEndpoint.recipe (source : BoundEndpoint) : EdgeRecipe :=
  { sourceCelltype := source.celltype, conversion := source.conversion
    conversionBefore := source.conversionBefore, conversionSteps := source.conversionSteps }

/-- `_add_endpoint_edge` connects its two end points at most. -/
theorem moving_addEndpointEdge {source target : BoundEndpoint} (hs : lim.joins source.place)
    (ht : lim.joins target.place) (hw : lim.wires source.place target.place source.recipe)
    (hshallow : target.kind = .cellSubvalue ∨ target.localPath.length ≤ 1) (detach : Bool) :
    Triple (fun ctx => Moves env lim start ctx ∧ (target.nodePath ∈ ctx.graph.nodes ∨ lim.stray))
      (addEndpointEdge env source target detach) (fun _ => Moves env lim start)
      (Moves env lim start) := by
  refine Triple.inspect (inspects_refuseIf _ _ _) (fun _ hc => hc.1) fun _ => ?_
  refine Triple.inspect (inspects_refuseIf _ _ _) (fun _ hc => hc.1.1) fun _ => ?_
  refine Triple.inspect (inspects_of_keeps fun P => keeps_checkDeepLink _ _ _)
    (fun _ hc => hc.1.1.1) fun _ => ?_
  refine Triple.inspect (inspects_checkTarget _ _ _) (fun _ hc => hc.1.1.1.1) fun _ => ?_
  refine Triple.assume (fun ctx hc => hshallow.elim hc.2 id) fun hl => ?_
  exact Triple.bind ((moving_addEdge hs ht hw hl _).conseq (fun ctx hc => hc.1.1.1.1)
    (fun _ _ h => h) fun _ h => h) fun _ => moving_dropReplaced _

/-- Wiring into a node that exists. -/
theorem moving_wire {source target : BoundEndpoint} (hs : lim.joins source.place)
    (ht : lim.joins target.place) (hw : lim.wires source.place target.place source.recipe)
    (hshallow : target.kind = .cellSubvalue ∨ target.localPath.length ≤ 1) (detach : Bool)
    {P : Ctx → Prop} (hP : ∀ ctx, P ctx → Moves env lim start ctx)
    (hnode : ∀ ctx, P ctx → target.nodePath ∈ ctx.graph.nodes) :
    Triple P (addEndpointEdge env source target detach) (fun _ => Moves env lim start)
      (Moves env lim start) :=
  (moving_addEndpointEdge hs ht hw hshallow detach).conseq
    (fun ctx hc => ⟨hP ctx hc, Or.inl (hnode ctx hc)⟩) (fun _ _ h => h) fun _ h => h

end Moving

end SeamlessWorkflow
