import SeamlessWorkflow.Proofs.Endpoints

/-!
# The sources of the edges stand

In every run, whatever it does to its wiring, the source of every edge resolves to a node: an edge is
appended when its source is there, and a node takes the edges from it with it.
-/

namespace SeamlessWorkflow

open Program Relation

namespace ContextGraph

/-- The source of every edge resolves. -/
def Sourced (g : ContextGraph) : Prop :=
  ∀ edge ∈ g.edges, (g.resolveExisting edge.source).isSome = true

variable {g g' : ContextGraph}

/-- Where a path resolves it still does after nodes have been added. -/
theorem resolves_mono (h : ∀ p, p ∈ g.nodes → p ∈ g'.nodes) {path : ViewPath}
    (hr : (g.resolveExisting path).isSome = true) : (g'.resolveExisting path).isSome = true := by
  obtain ⟨⟨n, l⟩, hsome⟩ := Option.isSome_iff_exists.mp hr
  have hreads := LongestPrefix.reads_of_split hsome
  have hn : n ∈ g.nodes := of_decide_eq_true hreads.accepted
  obtain ⟨m, k, hreads'⟩ := LongestPrefix.exists_reads (p := fun p => decide (p ∈ g'.nodes))
    (decide_eq_true (h n hn)) hreads.nonempty ⟨l, hreads.flat⟩
  unfold resolveExisting
  rw [LongestPrefix.split_eq_some_iff.mpr hreads']
  rfl

theorem Sourced.mono (h : g.Sourced) (hnodes : ∀ p, p ∈ g.nodes → p ∈ g'.nodes)
    (hedges : ∀ edge ∈ g'.edges, edge ∈ g.edges) : g'.Sourced :=
  fun edge hedge => resolves_mono hnodes (h edge (hedges edge hedge))

theorem Sourced.congr (h : g.Sourced) (hsame : SameGraph g g') : g'.Sourced := by
  refine h.mono (fun p hp => ?_) (fun edge hedge => ?_)
  · rw [hsame.nodes]
    exact hp
  · rw [← hsame.edges]
    exact hedge

/-- Only an edge that has its recipes is appended without a look at its source. -/
theorem registerEdgeSymbols_resolves {env : Substrate} {edge : Edge} {r : Edge × ContextGraph}
    (h : g.registerEdgeSymbols env edge = some r) (hchain : edge.sourceChain = []) :
    (g.resolveExisting edge.source).isSome = true := by
  unfold registerEdgeSymbols at h
  rw [if_neg (not_not.mpr hchain)] at h
  cases hr : g.resolveExisting edge.source with
  | none =>
    rw [hr] at h
    cases h
  | some source => rfl

theorem sourced_of_loaded {doc : Document} (h : Loaded doc g) : g.Sourced := by
  intro edge hedge
  obtain ⟨entry, -, hloaded⟩ := exists_related h.edges hedge
  obtain ⟨n, l, hsource⟩ := hloaded.source
  rw [hsource]
  rfl

end ContextGraph

/-! ## The moves -/

section Moves

variable {env : Substrate} {lim : Limits} {ctx ctx' : Ctx}

theorem mem_nodes_of_outline (h : ctx'.outline = ctx.outline) {p : NodePath}
    (hp : p ∈ ctx.graph.nodes) : p ∈ ctx'.graph.nodes := by
  rw [mem_nodes_iff_outline] at hp ⊢
  rw [h]
  exact hp

/-- A node that is put at a path takes none away. -/
theorem mem_nodes_of_update {path : NodePath} {node : Outline}
    (h : ctx'.outline = Function.update ctx.outline path (some node)) {p : NodePath}
    (hp : p ∈ ctx.graph.nodes) : p ∈ ctx'.graph.nodes := by
  rw [mem_nodes_iff_outline] at hp ⊢
  rw [h]
  by_cases hpath : p = path
  · rw [hpath, Function.update_self]
    rfl
  · rw [Function.update_of_ne hpath]
    exact hp

theorem sourced_of_outline (hs : ctx.graph.Sourced) (houtline : ctx'.outline = ctx.outline)
    (hedges : ∀ edge ∈ ctx'.graph.edges, edge ∈ ctx.graph.edges) : ctx'.graph.Sourced :=
  hs.mono (fun _ => mem_nodes_of_outline houtline) hedges

/-- What stays of the edges when a node is removed does not read what is removed with it. -/
theorem sourced_remove {path : NodePath} (hs : ctx.graph.Sourced)
    (h : Rewires ctx ctx' (fun q => if below path q then none else ctx.outline q)
      (ctx.graph.edges.filter fun edge => !below path edge.source && !below path edge.target)) :
    ctx'.graph.Sourced := by
  intro edge hedge
  rw [h.edges] at hedge
  obtain ⟨hold, hkeep⟩ := List.mem_filter.mp hedge
  rw [Bool.and_eq_true, Bool.not_eq_true'] at hkeep
  obtain ⟨⟨n, l⟩, hsome⟩ := Option.isSome_iff_exists.mp (hs edge hold)
  have hreads := LongestPrefix.reads_of_split hsome
  have hprefix : n <+: edge.source := ⟨l, hreads.flat⟩
  have hn : n ∈ ctx.graph.nodes := of_decide_eq_true hreads.accepted
  have hoff : below path n = false := by
    rw [Bool.eq_false_iff]
    intro hbelow
    have hin : below path edge.source = true := below_iff.mpr ((below_iff.mp hbelow).trans hprefix)
    rw [hin] at hkeep
    exact Bool.noConfusion hkeep.1
  have hn' : n ∈ ctx'.graph.nodes := by
    rw [mem_nodes_iff_outline] at hn ⊢
    rw [h.outline]
    dsimp only
    rw [hoff]
    exact hn
  obtain ⟨m, k, hreads'⟩ := LongestPrefix.exists_reads (p := fun p => decide (p ∈ ctx'.graph.nodes))
    (decide_eq_true hn') hreads.nonempty hprefix
  unfold ContextGraph.resolveExisting
  rw [LongestPrefix.split_eq_some_iff.mpr hreads']
  rfl

/-- A move keeps the sources, when the copies and the loads of its limits do. -/
theorem Move.sourced (h : Move env lim ctx ctx')
    (hcopies : ∀ s t, lim.copies ctx s t →
      (finalState (copySubcontext env s t ctx)).graph.Sourced)
    (hloads : ∀ g, lim.loads g → g.Sourced) (hs : ctx.graph.Sourced) : ctx'.graph.Sourced := by
  cases h with
  | quiet h => exact sourced_of_outline hs h.outline fun edge hedge => h.edges ▸ hedge
  | edit h => exact sourced_of_outline hs h.outline fun edge hedge => h.edges ▸ hedge
  | derive hsort hr =>
    refine sourced_of_outline hs (outline_deriveGraph env _ ctx) fun edge hedge => ?_
    rw [edges_deriveGraph] at hedge
    exact hedge
  | raise hr =>
    refine sourced_of_outline hs (outline_raised hr) fun edge hedge => ?_
    rw [edges_raised hr] at hedge
    exact hedge
  | drop keep h =>
    refine sourced_of_outline hs h.outline fun edge hedge => ?_
    rw [h.edges] at hedge
    exact (List.mem_filter.mp hedge).1
  | recast hn ht h =>
    exact hs.mono (fun _ => mem_nodes_of_update h.outline) fun edge hedge => h.edges ▸ hedge
  | connect hg hr h =>
    intro edge hedge
    rw [h.edges] at hedge
    refine ContextGraph.resolves_mono (fun _ => mem_nodes_of_outline h.outline) ?_
    rcases List.mem_append.mp hedge with hold | hnew
    · exact hs edge hold
    · obtain ⟨s, sl, t, tl, hresolved, -⟩ := hg.resolved
      rw [List.mem_singleton.mp hnew, hresolved]
      rfl
  | create hp hc h =>
    exact hs.mono (fun _ => mem_nodes_of_update h.outline) fun edge hedge => h.edges ▸ hedge
  | remove path hr h => exact sourced_remove hs h
  | retype hn ht h =>
    refine hs.mono (fun _ => mem_nodes_of_update h.outline) fun edge hedge => ?_
    rw [h.edges] at hedge
    exact (List.mem_filter.mp hedge).1
  | copy hc => exact hcopies _ _ hc
  | @load _ graph hl h hkind _ =>
    refine (hloads _ hl).mono (fun p hin => ?_) fun edge hedge => h.edges ▸ hedge
    have hsome := hkind p
    rw [mem_nodes_iff_outline]
    obtain ⟨node, hnode⟩ := AList.lookup_isSome.mpr hin |> Option.isSome_iff_exists.mp
    rw [hnode, Option.map_some] at hsome
    exact Option.isSome_iff_exists.mpr ((Option.map_eq_some_iff.mp hsome).imp fun _ h => h.1)
  | deliver hd =>
    refine sourced_of_outline hs (outline_updateRun _ _ _ ctx) fun edge hedge => ?_
    rw [edges_updateRun] at hedge
    exact hedge

/-! ## Copies -/

theorem keeps_sourced_deriveAll : Keeps (fun ctx => ctx.graph.Sourced) (deriveAll env) := by
  have hmoving : Moving env (.message fun _ _ _ => False) (deriveAll env) :=
    fun start => moving_deriveAll
  refine hmoving.keeps fun ctx ctx' hmove hs => hmove.sourced ?_ ?_ hs
  · exact fun _ _ hcopy => hcopy.elim
  · exact fun _ hload => hload.elim

/-- An edge is appended with its source. -/
theorem triple_appendSourced (edge : Edge) :
    Triple (fun ctx => ctx.graph.Sourced ∧
        (edge.sourceChain = [] ∨ (ctx.graph.resolveExisting edge.source).isSome = true))
      (appendEdge env edge) (fun _ ctx => ctx.graph.Sourced) fun ctx => ctx.graph.Sourced := by
  refine Triple.get_bind fun ctx => ?_
  cases hr : ctx.graph.registerEdgeSymbols env edge with
  | none => exact Triple.throw fun _ h => h.2.1
  | some r =>
    obtain ⟨edge', graph⟩ := r
    obtain ⟨hsame, chain, rfl⟩ := ContextGraph.registerEdgeSymbols_spec hr
    refine Triple.modify fun ctx' h => ?_
    obtain ⟨rfl, hs, hsource⟩ := h
    have hresolves : (ctx'.graph.resolveExisting edge.source).isSome = true := by
      rcases hsource with hchain | hresolves
      · exact ContextGraph.registerEdgeSymbols_resolves hr hchain
      · exact hresolves
    intro other hother
    have hnodes : ∀ p, p ∈ ctx'.graph.nodes → p ∈ graph.nodes := fun p hp => hsame.nodes ▸ hp
    refine ContextGraph.resolves_mono (g := ctx'.graph) hnodes ?_
    rcases List.mem_append.mp hother with hold | hnew
    · exact hs other (hsame.edges ▸ hold)
    · rw [List.mem_singleton.mp hnew]
      exact hresolves

theorem keeps_sourced_copyEdge (s t : NodePath) (edge : Edge) :
    Keeps (fun ctx => ctx.graph.Sourced) (copyEdge env s t edge) := by
  unfold copyEdge
  refine Triple.ite (fun _ => ?_) fun _ => ?_
  · exact (triple_appendSourced _).conseq (fun _ h => ⟨h, Or.inl rfl⟩) (fun _ _ h => h) fun _ h => h
  refine Triple.inspect (inspects_resolve _) (fun _ h => h) fun source => Triple.get_bind fun ctx => ?_
  refine Triple.bind (Triple.modify (Q := fun _ ctx => ctx.graph.Sourced ∧
    (ctx.graph.resolveExisting (edge.copy s t).source).isSome = true) fun ctx' h => ?_) fun _ => ?_
  · obtain ⟨rfl, hs, hresolved⟩ := h
    have hsame := ContextGraph.sameGraph_assignChainFrom env
      (edge.sourceChain.map fun recipe => (recipe.celltype, recipe.path)) ctx'.graph (.node source.1)
    refine ⟨hs.congr hsame, ?_⟩
    refine ContextGraph.resolves_mono (g := ctx'.graph) (fun p hp => ?_) ?_
    · exact hsame.nodes ▸ hp
    · rw [hresolved]
      rfl
  · exact (triple_appendSourced _).conseq (fun _ h => ⟨h.1, Or.inr h.2⟩) (fun _ _ h => h) fun _ h => h

theorem sourced_copyNode (s t path : NodePath) (hs : ctx.graph.Sourced) :
    (ctx.copyNode env s t path).graph.Sourced := by
  cases hnode : ctx.node? path with
  | none =>
    unfold Ctx.copyNode
    rw [hnode]
    exact hs
  | some node =>
    obtain ⟨ident, h⟩ := rewires_copyNode env s t ctx hnode
    exact hs.mono (fun _ => mem_nodes_of_update h.outline) fun edge hedge => h.edges ▸ hedge

theorem keeps_sourced_copySubcontext (s t : NodePath) :
    Keeps (fun ctx => ctx.graph.Sourced) (copySubcontext env s t) := by
  refine Keeps.bind (Keeps.modify fun ctx hs => hs) fun _ => ?_
  refine Keeps.bind (keeps_sortedDescendants s) fun descendants => ?_
  refine Keeps.bind (Keeps.modify fun ctx hs => ?_) fun _ => Keeps.bind Keeps.get fun ctx => ?_
  · induction descendants generalizing ctx with
    | nil => exact hs
    | cons path paths ih => exact ih _ (sourced_copyNode s t path hs)
  · refine Keeps.bind (Keeps.forM fun edge _ => keeps_sourced_copyEdge s t edge) fun _ => ?_
    exact keeps_sourced_deriveAll

/-! ## Events -/

theorem Moves.sourced (hloads : ∀ g, lim.loads g → g.Sourced) (h : Moves env lim ctx ctx')
    (hs : ctx.graph.Sourced) : ctx'.graph.Sourced := by
  induction h with
  | refl => exact hs
  | tail _ hmove ih =>
    exact hmove.sourced (fun s t _ => (keeps_sourced_copySubcontext s t).final ih) hloads ih

theorem Event.loads_sourced {event : Event} {g : ContextGraph}
    (h : (event.limits env ctx).loads g) : g.Sourced := by
  cases event with
  | turn turn now missing =>
    cases turn with
    | setGraph doc attachments => exact ContextGraph.sourced_of_loaded (prepareGraph_spec h)
    | _ => exact h.elim
  | _ => exact h.elim

/-- Every event keeps the sources. -/
theorem System.step_sourced {sys next : System} {event : Event}
    (h : sys.step env event = some next) (hs : sys.ctx.graph.Sourced) : next.ctx.graph.Sourced := by
  rcases step_cases h with rfl | ⟨now, missing, ctx, hmoves, rfl⟩
  · cases event <;> exact hs
  · exact Moves.sourced (fun g => Event.loads_sourced) hmoves hs

end Moves

end SeamlessWorkflow
