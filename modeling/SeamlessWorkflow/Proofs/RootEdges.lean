import SeamlessWorkflow.Proofs.RootWrites

/-!
# Root edges

Wiring an end point leaves its target with the new edge and no other root input, provided that the
target has no root expression, and no stored value that the wiring does not drop.
-/

namespace SeamlessWorkflow

open Program Relation

theorem Ctx.expressionAt_of_cell? {ctx : Ctx} {path : NodePath} {fields : CellFields}
    (h : ctx.cell? path = some fields) : ctx.expressionAt path = fields.rootExpression := by
  unfold Ctx.expressionAt
  rw [h]
  rfl

theorem Ctx.producerAt_of_cell? {ctx : Ctx} {path : NodePath} {fields : CellFields}
    (h : ctx.cell? path = some fields) : ctx.producerAt path = fields.rootProducer := by
  unfold Ctx.producerAt
  rw [h]
  rfl

theorem Ctx.isCell_of_cell? {ctx : Ctx} {path : NodePath} (h : (ctx.cell? path).isSome = true) :
    (ctx.node? path).map Node.isCell = some true := by
  unfold Ctx.cell? at h
  cases hn : ctx.node? path with
  | none => rw [hn] at h; cases h
  | some node =>
    rw [hn] at h
    obtain ⟨ident, body⟩ := node
    cases body with
    | cell fields => rfl
    | transformer fields => cases h

theorem Ctx.mem_of_cell? {ctx : Ctx} {path : NodePath} (h : (ctx.cell? path).isSome = true) :
    path ∈ ctx.graph.nodes := by
  rw [← AList.lookup_isSome]
  unfold Ctx.cell? Ctx.node? at h
  cases hn : ctx.graph.nodes.lookup path with
  | none => rw [hn] at h; cases h
  | some node => rfl

/-- The root of the cell at a path is free of an expression and of a stored value. -/
structure Ctx.Unrooted (ctx : Ctx) (path : NodePath) : Prop where
  expression : ctx.expressionAt path = none
  producer : ctx.producerAt path = none

instance (ctx : Ctx) (path : NodePath) : Decidable (ctx.Unrooted path) :=
  decidable_of_iff (ctx.expressionAt path = none ∧ ctx.producerAt path = none)
    ⟨fun h => ⟨h.1, h.2⟩, fun h => ⟨h.expression, h.producer⟩⟩

theorem FewerRoots.unrooted {a b : Ctx} (h : FewerRoots a b) {path : NodePath}
    (hu : a.Unrooted path) : b.Unrooted path := ⟨h.expression hu.expression, h.producer hu.producer⟩

theorem edgesInto_removeEdges {g : ContextGraph} (path : NodePath) (l : Path) (descendants : Bool)
    {q : NodePath} (hq : q ≠ path) :
    (g.removeEdgesTargeting path l descendants).edgesInto q = g.edgesInto q := by
  unfold ContextGraph.edgesInto ContextGraph.removeEdgesTargeting
  rw [List.filter_filter]
  refine List.filter_congr fun e _ => ?_
  show (decide ((g.resolveExisting e.target).map Prod.fst = some q) && _) = _
  cases hr : g.resolveExisting e.target with
  | none => simp
  | some r =>
    obtain ⟨n, m⟩ := r
    by_cases hn : n = q
    · subst hn
      simp [hq]
    · simp [hn]

namespace Joins

variable {start next : Ctx} {source target : Place} {recipe : EdgeRecipe}

theorem resolveExisting (h : Joins start source target recipe next) :
    next.graph.resolveExisting = start.graph.resolveExisting :=
  ContextGraph.resolveExisting_of_nodes h.nodes

theorem cell? (h : Joins start source target recipe next) (path : NodePath) :
    next.cell? path = start.cell? path := by
  unfold Ctx.cell? Ctx.node?
  rw [h.nodes]

theorem expressionAt (h : Joins start source target recipe next) (path : NodePath) :
    next.expressionAt path = start.expressionAt path := by
  unfold Ctx.expressionAt
  rw [h.cell?]

theorem producerAt (h : Joins start source target recipe next) (path : NodePath) :
    next.producerAt path = start.producerAt path := by
  unfold Ctx.producerAt
  rw [h.cell?]

theorem unrooted (h : Joins start source target recipe next) {path : NodePath}
    (hu : start.Unrooted path) : next.Unrooted path :=
  ⟨by rw [h.expressionAt]; exact hu.expression, by rw [h.producerAt]; exact hu.producer⟩

/-- The new edge takes the place of those at its target, so that its target is free at the end. -/
theorem oneRoot (h : Joins start source target recipe next) (ho : start.OneRoot) {ctx : Ctx}
    (hf : FewerRoots next ctx) (hu : ctx.Unrooted target.flat) : ctx.OneRoot := by
  obtain ⟨n, l, edge, ht, -, hd, hedges⟩ := h.edges
  have htarget : edge.target = target.flat := hd.target_eq
  have hkept : ∀ e ∈ (start.graph.removeEdgesTargeting n l true).edges,
      e ∈ start.graph.edges ∧ e.target ≠ target.flat := by
    intro e he
    obtain ⟨hm, hkeep⟩ := List.mem_filter.mp he
    refine ⟨hm, fun heq => ?_⟩
    rw [heq, ht] at hkeep
    simp at hkeep
  have hmem : ∀ e ∈ ctx.graph.edges, e.target = target.flat ∨
      e ∈ start.graph.edges ∧ e.target ≠ target.flat := by
    intro e he
    have hn := hf.edges.subset he
    rw [hedges] at hn
    rcases List.mem_append.mp hn with hold | hnew
    · exact Or.inr (hkept e hold)
    · rw [List.mem_singleton.mp hnew]
      exact Or.inl htarget
  have hold : ∀ path, start.expressionAt path = none → ctx.expressionAt path = none := by
    intro path hp
    exact hf.expression (by rw [h.expressionAt]; exact hp)
  have hstored : ∀ path, start.producerAt path = none → ctx.producerAt path = none := by
    intro path hp
    exact hf.producer (by rw [h.producerAt]; exact hp)
  refine ⟨fun e he => ?_, ?_, fun path => ?_, fun e he => ?_⟩
  · rcases hmem e he with heq | ⟨hm, -⟩
    · rw [heq]
      exact (ContextGraph.resolveExisting_eq_some.mp ht).flat ▸ fun hnil =>
        (ContextGraph.resolveExisting_eq_some.mp ht).nonempty (List.append_eq_nil_iff.mp hnil).1
    · exact ho.named e hm
  · refine (hf.edges.map Edge.target).nodup ?_
    rw [hedges, List.map_append]
    refine List.nodup_append.mpr ⟨(List.filter_sublist.map _).nodup ho.targets,
      List.nodup_singleton _, fun p hp q hq => ?_⟩
    obtain ⟨e, he, rfl⟩ := List.mem_map.mp hp
    obtain rfl := List.mem_singleton.mp hq
    rw [htarget]
    exact (hkept e he).2
  · exact (ho.alone path).imp (hold path) (hstored path)
  · rcases hmem e he with heq | ⟨hm, -⟩
    · rw [heq]
      exact ⟨hu.expression, hu.producer⟩
    · exact ⟨hold _ (ho.unwired e hm).1, hstored _ (ho.unwired e hm).2⟩

/-- The edges into the node that is wired as a whole, and into the others. -/
theorem edgesInto {path : NodePath} (h : Joins start source ⟨path, []⟩ recipe next)
    (hp : path ∈ start.graph.nodes) : ∃ edge, recipe.Describes source ⟨path, []⟩ edge ∧
      next.graph.resolveExisting edge.target = some (path, []) ∧
      next.graph.edgesInto path = [edge] ∧
      ∀ q, q ≠ path → next.graph.edgesInto q = start.graph.edgesInto q := by
  obtain ⟨n, l, edge, ht, -, hd, hedges⟩ := h.edges
  have hflat : (⟨path, []⟩ : Place).flat = path := List.append_nil path
  rw [hflat] at ht
  have hne : path ≠ [] := by
    rintro rfl
    have := ContextGraph.resolveExisting_eq_some.mp ht
    exact this.nonempty (List.append_eq_nil_iff.mp this.flat).1
  have hself := resolveExisting_self hp hne
  obtain ⟨rfl, rfl⟩ := Prod.ext_iff.mp (Option.some.inj (hself.symm.trans ht))
  have htarget : start.graph.resolveExisting edge.target = some (path, []) := by
    rw [hd.target_eq, hflat]
    exact hself
  refine ⟨edge, hd, by rw [h.resolveExisting]; exact htarget, ?_, fun q hq => ?_⟩
  · unfold ContextGraph.edgesInto
    rw [hedges, h.resolveExisting, List.filter_append]
    have hgone : (start.graph.removeEdgesTargeting path [] true).edges.filter (fun e =>
        decide ((start.graph.resolveExisting e.target).map Prod.fst = some path)) = [] := by
      refine List.filter_eq_nil_iff.mpr fun e he => ?_
      have := free_removeEdges he
      simpa using this
    rw [hgone, List.filter_cons_of_pos (by rw [htarget]; simp)]
    rfl
  · rw [← edgesInto_removeEdges (g := start.graph) path [] true hq]
    unfold ContextGraph.edgesInto
    rw [hedges, h.resolveExisting, List.filter_append,
      List.filter_cons_of_neg (by rw [htarget]; simpa using hq.symm), List.filter_nil,
      List.append_nil]
    rfl

end Joins

/-! ## What a write leaves alone -/

/-- Only the cell at a path and the edges into it differ. -/
structure OnlyAt (path : NodePath) (a b : Ctx) : Prop where
  mem : ∀ q, q ∈ b.graph.nodes ↔ q ∈ a.graph.nodes
  cells : ∀ q, q ≠ path → b.cell? q = a.cell? q
  edges : ∀ q, q ≠ path → b.graph.edgesInto q = a.graph.edgesInto q

namespace OnlyAt

variable {path : NodePath} {a b c : Ctx}

theorem trans (h : OnlyAt path a b) (h' : OnlyAt path b c) : OnlyAt path a c :=
  ⟨fun q => (h'.mem q).trans (h.mem q), fun q hq => (h'.cells q hq).trans (h.cells q hq),
    fun q hq => (h'.edges q hq).trans (h.edges q hq)⟩

theorem resolveExisting (h : OnlyAt path a b) :
    b.graph.resolveExisting = a.graph.resolveExisting := ContextGraph.resolveExisting_congr h.mem

theorem of_same (h : SameRoots a b) : OnlyAt path a b := by
  refine ⟨h.mem, fun q _ => h.cells q, fun q _ => ?_⟩
  unfold ContextGraph.edgesInto
  rw [h.edges, h.resolveExisting]

theorem of_joins {source : Place} {recipe : EdgeRecipe}
    (h : Joins a source ⟨path, []⟩ recipe b) (hp : path ∈ a.graph.nodes) : OnlyAt path a b := by
  obtain ⟨edge, -, -, -, hother⟩ := h.edgesInto hp
  exact ⟨fun q => by rw [h.nodes], fun q _ => h.cell? q, hother⟩

theorem of_rootSet {f : CellFields → CellFields} {edges : List Edge}
    (h : RootSet a path f edges b)
    (hedges : edges = a.graph.edges ∨ edges = (a.graph.removeEdgesTargeting path [] true).edges) :
    OnlyAt path a b := by
  refine ⟨h.mem, fun q hq => by rw [h.cells, if_neg hq], fun q hq => ?_⟩
  have hinto : b.graph.edgesInto q = edges.filter fun edge =>
      decide ((a.graph.resolveExisting edge.target).map Prod.fst = some q) := by
    unfold ContextGraph.edgesInto
    rw [h.edges, h.resolveExisting]
  rw [hinto]
  rcases hedges with rfl | rfl
  · rfl
  · exact edgesInto_removeEdges path [] true hq

/-- What the other cells take stays. -/
theorem takes (h : OnlyAt path a b) {q : NodePath} (hq : q ≠ path) {input : RootInput}
    (ht : a.Takes q input) : b.Takes q input where
  cell := by rw [h.cells q hq]; exact ht.cell
  edges := by rw [h.edges q hq]; exact ht.edges
  whole := by rw [h.resolveExisting]; exact ht.whole
  expression := by
    rw [← ht.expression]
    unfold Ctx.expressionAt
    rw [h.cells q hq]
  producer := by
    rw [← ht.producer]
    unfold Ctx.producerAt
    rw [h.cells q hq]

end OnlyAt

/-! ## Wiring programs -/

section Wiring

variable {env : Substrate} {start : Ctx}

/-- A stored value is replaced at every node that is there. -/
theorem replaceRootProducer_ok (path : NodePath) (producer : Option ConstantProducer)
    (hp : path ∈ start.graph.nodes) :
    Triple (· = start) (replaceRootProducer path producer)
      (fun _ => RootSet start path (CellFields.storing producer) start.graph.edges)
      fun _ => False := by
  have hnode : ∃ node, start.node? path = some node := by
    rw [← AList.lookup_isSome] at hp
    exact Option.isSome_iff_exists.mp hp
  obtain ⟨node, hnode⟩ := hnode
  intro ctx hctx
  subst hctx
  have hresult : Triple (· = ctx) (replaceRootProducer path producer) _ _ :=
    replaceRootProducer_result path producer
  specialize hresult ctx rfl
  cases hr : replaceRootProducer path producer ctx with
  | ok u ctx' =>
    rw [hr] at hresult
    exact hresult
  | error e ctx' =>
    -- the lookup of the node is all that can fail
    unfold replaceRootProducer nodeAt at hr
    simp only [bind, EStateM.bind, get, getThe, MonadStateOf.get] at hr
    delta EStateM.get at hr
    simp only [hnode, pure, EStateM.pure, modifyNode, SeamlessWorkflow.modifyGraph, releaseProducer, modify,
      modifyGet, MonadStateOf.modifyGet] at hr
    delta EStateM.modifyGet at hr
    dsimp only at hr
    cases hr

/-- Wiring into a part of the graph that has no root input. -/
theorem addEndpointEdge_free (source target : BoundEndpoint) (detach : Bool) (ho : start.OneRoot)
    (hu : start.Unrooted target.place.flat) :
    Triple (· = start) (addEndpointEdge env source target detach)
      (fun _ ctx => ctx.OneRoot ∧ ∃ next, Joins start source.place target.place source.recipe next ∧
        FewerRoots next ctx) Ctx.OneRoot := by
  have hdrop : ∀ {next derived : Ctx}, deriveAll env next = .ok () derived →
      ∀ ctx, FewerRoots derived ctx → FewerRoots next ctx := fun hd ctx hf =>
    (FewerRoots.of_durable (durable_deriveAll hd)).trans hf
  have hjoined : ∀ {next ctx : Ctx}, Joins start source.place target.place source.recipe next →
      FewerRoots next ctx → ctx.OneRoot := fun hj hf => hj.oneRoot ho hf (hf.unrooted (hj.unrooted hu))
  refine (addEndpointEdge_result env source target detach start).conseq (fun _ h => h)
    (fun _ ctx hc => ?_) fun ctx hc => ?_
  · obtain ⟨next, derived, hj, hd, hr⟩ := hc
    have hf := addsNone_dropReplaced target derived (SameRoots.refl derived).fewer
    rw [hr] at hf
    have := hdrop hd ctx hf
    exact ⟨hjoined hj this, next, hj, this⟩
  · rcases hc with rfl | ⟨next, derived, e, hj, hd | ⟨hd, hr⟩⟩
    · exact ho
    · exact hjoined hj (.of_durable (deriveAll_error hd).2)
    · have hf := addsNone_dropReplaced target derived (SameRoots.refl derived).fewer
      rw [hr] at hf
      exact hjoined hj (hdrop hd ctx hf)

/-- Wiring a cell as a whole drops its stored value. -/
theorem dropReplaced_cell {path : NodePath} (hcell : (start.cell? path).isSome = true) :
    Triple (· = start) (dropReplaced (cellEndpoint path []))
      (fun _ => RootSet start path (CellFields.storing none) start.graph.edges) fun _ => False := by
  obtain ⟨node, hnode, hisCell⟩ : ∃ node, start.node? path = some node ∧ node.isCell = true := by
    unfold Ctx.cell? at hcell
    cases hn : start.node? path with
    | none => rw [hn] at hcell; cases hcell
    | some node =>
      refine ⟨node, rfl, ?_⟩
      rw [hn] at hcell
      unfold Node.isCell
      unfold Option.bind Node.cellFields at hcell
      cases hb : node.body with
      | cell fields => rfl
      | transformer fields => simp [hb] at hcell
  have hread : nodeAt path start = .ok node start := by
    unfold nodeAt
    simp only [bind, EStateM.bind, get, getThe, MonadStateOf.get]
    delta EStateM.get
    simp [hnode, pure, EStateM.pure]
  have hdrop : dropReplaced (cellEndpoint path []) start = replaceRootProducer path none start := by
    show (nodeAt path >>= _) start = _
    simp only [bind, EStateM.bind, hread, hisCell]
    rfl
  intro ctx hctx
  subst hctx
  rw [hdrop]
  exact replaceRootProducer_ok path none (Ctx.mem_of_cell? hcell) ctx rfl

/-- A new edge into a cell as a whole is the only input of the cell. -/
theorem addEndpointEdge_root {path : NodePath} (source : BoundEndpoint) (detach : Bool)
    (ho : start.OneRoot) (hcell : (start.cell? path).isSome = true)
    (hx : start.expressionAt path = none) (hp : start.producerAt path = none ∨ start.Derivable) :
    Triple (· = start) (addEndpointEdge env source (cellEndpoint path []) detach)
      (fun _ ctx => ctx.OneRoot ∧ OnlyAt path start ctx ∧
        ∃ edge, source.recipe.Describes source.place ⟨path, []⟩ edge ∧ ctx.Takes path (.edge edge))
      Ctx.OneRoot := by
  have hmem := Ctx.mem_of_cell? hcell
  have hflat : (⟨path, []⟩ : Place).flat = path := List.append_nil path
  refine (addEndpointEdge_result env source (cellEndpoint path []) detach start).conseq
    (fun _ h => h) (fun _ ctx hc => ?_) fun ctx hc => ?_
  · obtain ⟨next, derived, hj, hd, hr⟩ := hc
    have hj : Joins start source.place ⟨path, []⟩ source.recipe next := hj
    have hsame : SameRoots next derived := .of_durable (durable_deriveAll hd)
    have hcell' : (derived.cell? path).isSome = true := by
      rw [hsame.cells, hj.cell?]
      exact hcell
    have hset := dropReplaced_cell hcell' derived rfl
    rw [hr] at hset
    have hexpression : ctx.expressionAt path = none := by
      rw [hset.expressionAt, if_pos rfl]
      cases hf : derived.cell? path with
      | none => rfl
      | some fields =>
        show fields.rootExpression = none
        rw [← Ctx.expressionAt_of_cell? hf]
        exact hsame.fewer.expression (by rw [hj.expressionAt]; exact hx)
    have hproducer : ctx.producerAt path = none := by
      rw [hset.producerAt, if_pos rfl]
      cases derived.cell? path <;> rfl
    have hfewer : FewerRoots next ctx := by
      have hf := addsNone_dropReplaced (cellEndpoint path []) derived (SameRoots.refl derived).fewer
      rw [hr] at hf
      exact hsame.fewer.trans hf
    have honly : OnlyAt path next ctx := (OnlyAt.of_same hsame).trans (.of_rootSet hset (Or.inl rfl))
    obtain ⟨edge, hdescribes, hwhole, hinto, -⟩ := hj.edgesInto hmem
    refine ⟨hj.oneRoot ho hfewer ?_, (OnlyAt.of_joins hj hmem).trans honly, edge, hdescribes, ?_, ?_,
      ?_, hexpression, hproducer⟩
    · rw [hflat]
      exact ⟨hexpression, hproducer⟩
    · rw [hset.cells, if_pos rfl, Option.isSome_map]
      exact hcell'
    · have hres : ctx.graph.resolveExisting = next.graph.resolveExisting := honly.resolveExisting
      have hedges : ctx.graph.edges = next.graph.edges := hset.edges.trans hsame.edges
      show _ = [edge]
      rw [← hinto]
      unfold ContextGraph.edgesInto
      rw [hedges, hres]
    · intro e he
      obtain rfl := List.mem_singleton.mp he
      rw [honly.resolveExisting]
      exact hwhole
  · rcases hc with rfl | ⟨next, derived, e, hj, hd | ⟨hd, hr⟩⟩
    · exact ho
    · obtain ⟨hnot, hdurable⟩ := deriveAll_error hd
      have htarget : ∀ p, start.graph.resolveExisting (cellEndpoint path []).place.flat = some (p, []) →
          (start.node? p).map Node.isCell = some true := by
        intro p hr
        have hp : p ++ [] = path := (ContextGraph.resolveExisting_eq_some.mp hr).flat.trans hflat
        obtain rfl : p = path := (List.append_nil p).symm.trans hp
        exact Ctx.isCell_of_cell? hcell
      have hfree : start.producerAt path = none :=
        hp.resolve_right fun hder => hnot (hj.derivable hder htarget)
      have hf : FewerRoots next ctx := .of_durable hdurable
      have hj : Joins start source.place ⟨path, []⟩ source.recipe next := hj
      refine hj.oneRoot ho hf (hf.unrooted (hj.unrooted ?_))
      rw [hflat]
      exact ⟨hx, hfree⟩
    · have hcell' : (derived.cell? path).isSome = true := by
        rw [(SameRoots.of_durable (durable_deriveAll hd)).cells, hj.cell?]
        exact hcell
      have := dropReplaced_cell hcell' derived rfl
      rw [hr] at this
      exact this.elim

/-- A new edge into a cell that has no other root input, as a builder adds it. -/
theorem addEdge_root {path : NodePath} (source : Place) (recipe : EdgeRecipe) (detach : Bool)
    (ho : start.OneRoot) (hcell : (start.cell? path).isSome = true) (hu : start.Unrooted path) :
    Triple (· = start) (addEdge env source ⟨path, []⟩ recipe detach)
      (fun _ ctx => ctx.OneRoot ∧ OnlyAt path start ctx ∧
        ∃ edge, recipe.Describes source ⟨path, []⟩ edge ∧ ctx.Takes path (.edge edge))
      fun ctx => ctx.OneRoot ∧ ctx.Unrooted path := by
  have hmem := Ctx.mem_of_cell? hcell
  have hflat : (⟨path, []⟩ : Place).flat = path := List.append_nil path
  refine (addEdge_result env source ⟨path, []⟩ recipe detach start).conseq (fun _ h => h)
    (fun _ ctx hc => ?_) fun ctx hc => ?_
  · obtain ⟨next, hj, hd⟩ := hc
    have hsame : SameRoots next ctx := .of_durable (durable_deriveAll hd)
    have hfree := hsame.fewer.unrooted (hj.unrooted hu)
    obtain ⟨edge, hdescribes, hwhole, hinto, -⟩ := hj.edgesInto hmem
    refine ⟨hj.oneRoot ho hsame.fewer (by rw [hflat]; exact hfree),
      (OnlyAt.of_joins hj hmem).trans (.of_same hsame), edge, hdescribes, hsame.takes ?_⟩
    refine ⟨by rw [hj.cell?]; exact hcell, hinto, fun e he => ?_, ?_, ?_⟩
    · obtain rfl := List.mem_singleton.mp he
      exact hwhole
    · exact (hj.unrooted hu).expression
    · exact (hj.unrooted hu).producer
  · rcases hc with rfl | ⟨next, e, hj, hd⟩
    · exact ⟨ho, hu⟩
    · have hf : FewerRoots next ctx := .of_durable (deriveAll_error hd).2
      have hfree := hf.unrooted (hj.unrooted hu)
      exact ⟨hj.oneRoot ho hf (by rw [hflat]; exact hfree), hfree⟩

end Wiring

end SeamlessWorkflow
