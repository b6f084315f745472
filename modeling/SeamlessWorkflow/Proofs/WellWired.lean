import SeamlessWorkflow.Proofs.TurnMoves

/-!
# The wiring of a Context

The nodes and the edges of a Context are a wiring, and the guards that the code checks are the
conditions under which the changes of a wiring keep it well formed.
-/

namespace SeamlessWorkflow

open Program Relation

/-- The end point of an edge as a terminal. -/
def Place.terminal (place : Place) : Terminal Component := ⟨place.node, place.localPath⟩

def Edge.wire (edge : Edge) : Wire Component :=
  ⟨edge.sourcePlace.terminal, edge.targetPlace.terminal⟩

theorem Edge.wire_source (edge : Edge) : edge.wire.source.flat = edge.source :=
  edge.sourceFlat.symm

theorem Edge.wire_target (edge : Edge) : edge.wire.target.flat = edge.target :=
  edge.targetFlat.symm

/-- The wiring of nodes and edges: cells are marked. -/
def wiringOf (outline : NodePath → Option Outline) (edges : List Edge) : Wiring Component where
  node path := (outline path).map Outline.isCell
  wires := edges.map Edge.wire

def ContextGraph.wiring (g : ContextGraph) : Wiring Component where
  node path := (g.nodes.lookup path).map Node.isCell
  wires := g.edges.map Edge.wire

/-- The wiring of a Context depends on its outline and its edges. -/
theorem Ctx.wiring_eq (ctx : Ctx) : ctx.graph.wiring = wiringOf ctx.outline ctx.graph.edges := by
  unfold ContextGraph.wiring wiringOf Ctx.outline Ctx.node?
  simp only [Option.map_map, Function.comp_def, Node.outline]

theorem Becomes.wiring {ctx : Ctx} {outline : NodePath → Option Outline}
    {edges : List Edge} (h : Becomes ctx outline edges) :
    ctx.graph.wiring = wiringOf outline edges := by
  rw [Ctx.wiring_eq, h.outline, h.edges]

namespace ContextGraph

/-! ## Resolution -/

theorem stands_wiring (g : ContextGraph) (path : NodePath) :
    g.wiring.stands path = decide (path ∈ g.nodes) := by
  unfold Wiring.stands wiring
  rw [Option.isSome_map, Bool.eq_iff_iff, decide_eq_true_iff, AList.lookup_isSome]

/-- Resolution is the reading of a path in the wiring. -/
theorem resolveExisting_eq_some {g : ContextGraph} {path : ViewPath} {n : NodePath} {l : Path} :
    g.resolveExisting path = some (n, l) ↔ g.wiring.Resolves path n l := by
  unfold resolveExisting Wiring.Resolves
  rw [LongestPrefix.split_eq_some_iff, funext (stands_wiring g)]

theorem resolveExisting_mem {g : ContextGraph} {viewPath : ViewPath} {n : NodePath} {l : Path}
    (h : g.resolveExisting viewPath = some (n, l)) : n ∈ g.nodes :=
  of_decide_eq_true (LongestPrefix.reads_of_split h).accepted

/-- `s` feeds `t`: an edge leads from one to the other. -/
def Feeds (g : ContextGraph) (s t : NodePath) : Prop :=
  ∃ edge ∈ g.edges, g.edgeNodes edge = some (s, t)

theorem edgeNodes_eq_some {g : ContextGraph} {edge : Edge} {s t : NodePath} :
    g.edgeNodes edge = some (s, t) ↔ (∃ l, g.resolveExisting edge.source = some (s, l)) ∧
      ∃ l, g.resolveExisting edge.target = some (t, l) := by
  unfold edgeNodes
  cases g.resolveExisting edge.source with
  | none => simp
  | some a =>
    cases g.resolveExisting edge.target with
    | none => simp
    | some b =>
      obtain ⟨n, l⟩ := a
      obtain ⟨m, k⟩ := b
      simp

theorem feeds_iff {g : ContextGraph} {s t : NodePath} : g.Feeds s t ↔ g.wiring.Dep s t := by
  unfold Feeds Wiring.Dep wiring
  simp only [List.mem_map, exists_exists_and_eq_and, Edge.wire_source, Edge.wire_target,
    edgeNodes_eq_some, resolveExisting_eq_some]
  rfl

/-- `_would_cycle` follows the dependencies. -/
theorem wouldCycle_iff {g : ContextGraph} {s t : NodePath} :
    g.wouldCycle s t = true ↔ ReflTransGen g.wiring.Dep t s := by
  have hedge : Reach.Edge (g.edges.filterMap g.edgeNodes) = g.wiring.Dep := by
    funext a b
    refine propext (Iff.trans ?_ feeds_iff)
    exact List.mem_filterMap
  rw [wouldCycle, Reach.reaches_iff, hedge]

/-! ## Well-formed graphs -/

/-- Each target has at most one incoming edge, a cell with a root edge has no edge into a sub-path,
both end points of every edge resolve, and no node depends on itself. -/
structure WellFormed (g : ContextGraph) : Prop where
  single : (g.edges.map fun edge => g.resolveExisting edge.target).Nodup
  rootAlone : ∀ edge ∈ g.edges, ∀ edge' ∈ g.edges, ∀ t l,
    (g.nodes.lookup t).map Node.isCell = some true →
    g.resolveExisting edge.target = some (t, []) →
    g.resolveExisting edge'.target = some (t, l) → l = []
  resolved : ∀ edge ∈ g.edges, (∃ s l, s ∈ g.nodes ∧ g.resolveExisting edge.source = some (s, l)) ∧
    ∃ t l, t ∈ g.nodes ∧ g.resolveExisting edge.target = some (t, l)
  acyclic : Reach.Acyclic g.Feeds

theorem mem_of_resolves {g : ContextGraph} {path : ViewPath} {n : NodePath} {l : Path}
    (h : g.wiring.Resolves path n l) : n ∈ g.nodes := by
  have := h.stands
  rw [stands_wiring] at this
  exact of_decide_eq_true this

/-- A graph with a well-formed wiring is well formed. -/
theorem wellFormed_of_wellWired {g : ContextGraph} (h : g.wiring.WellWired) : g.WellFormed := by
  have hmem : ∀ edge ∈ g.edges, edge.wire ∈ g.wiring.wires := fun edge => List.mem_map_of_mem
  have hsource : ∀ edge ∈ g.edges, ∃ n l, g.wiring.Resolves edge.source n l := fun edge he => by
    have := h.sourceResolves _ (hmem edge he)
    rwa [Edge.wire_source] at this
  have htarget : ∀ edge ∈ g.edges, ∃ n l, g.wiring.Resolves edge.target n l := fun edge he => by
    obtain ⟨n, l, hr, -⟩ := h.targetResolves _ (hmem edge he)
    exact ⟨n, l, Edge.wire_target edge ▸ hr⟩
  refine ⟨?_, ?_, fun edge he => ⟨?_, ?_⟩, h.acyclic.mono fun a b => feeds_iff.mp⟩
  · -- one target has one flattened path
    have hflat : (g.edges.map Edge.target).Nodup := by
      have hdistinct := h.distinct
      rw [show g.wiring.wires = g.edges.map Edge.wire from rfl, List.map_map] at hdistinct
      simpa only [Function.comp_def, Edge.wire_target] using hdistinct
    refine List.Nodup.map_on (fun x hx y hy hxy => ?_) hflat.of_map
    obtain ⟨n, l, hr⟩ := htarget x hx
    obtain ⟨m, k, hr'⟩ := htarget y hy
    rw [resolveExisting_eq_some.mpr hr, resolveExisting_eq_some.mpr hr'] at hxy
    obtain ⟨rfl, rfl⟩ := Prod.mk.injEq .. |>.mp (Option.some.inj hxy)
    exact List.inj_on_of_nodup_map hflat hx hy (hr.flat.symm.trans hr'.flat)
  · intro x hx y hy t l ht hrx hry
    refine h.rootAlone _ (hmem x hx) _ (hmem y hy) t l ht ?_ ?_
    · rw [Edge.wire_target]; exact resolveExisting_eq_some.mp hrx
    · rw [Edge.wire_target]; exact resolveExisting_eq_some.mp hry
  · obtain ⟨n, l, hr⟩ := hsource edge he
    exact ⟨n, l, mem_of_resolves hr, resolveExisting_eq_some.mpr hr⟩
  · obtain ⟨n, l, hr⟩ := htarget edge he
    exact ⟨n, l, mem_of_resolves hr, resolveExisting_eq_some.mpr hr⟩

end ContextGraph

/-! ## The moves -/

section Moves

variable {env : Substrate} {lim : Limits} {ctx ctx' : Ctx}

theorem Guarded.connectable {edge : Edge} {stray : Prop} (h : Guarded ctx edge stray)
    (hs : ¬ stray) : ∃ s t tl, ctx.graph.wiring.Connectable edge.wire s t tl := by
  obtain ⟨s, sl, t, tl, hrs, hrt, hst, hcycle, hfree, halone⟩ := h.resolved
  have hrs' := ContextGraph.resolveExisting_eq_some.mp hrs
  have hrt' := ContextGraph.resolveExisting_eq_some.mp hrt
  refine ⟨s, t, tl, ⟨sl, ?_⟩, ?_, ?_, fun wire hw => ?_, fun hcell wire hw l hr => ?_, ?_⟩
  · rwa [Edge.wire_source]
  · rwa [Edge.wire_target]
  · -- the addressed node stands, so the rest is inside the meant local path
    have hnode : edge.targetPlace.node ∈ ctx.graph.nodes := h.addressed.resolve_right hs
    have hlong : edge.targetPlace.node.length ≤ t.length := by
      refine hrt'.longest _ ?_ ?_
      · rw [ContextGraph.stands_wiring]; exact decide_eq_true hnode
      · rw [edge.targetFlat]; exact ⟨_, rfl⟩
    have hflat := congrArg List.length (hrt'.flat.trans edge.targetFlat)
    simp only [Place.flat, List.length_append] at hflat
    have := h.shallow
    omega
  · obtain ⟨other, hother, rfl⟩ := List.mem_map.mp hw
    intro heq
    rw [Edge.wire_target, Edge.wire_target] at heq
    exact hfree other hother (heq ▸ hrt)
  · obtain ⟨other, hother, rfl⟩ := List.mem_map.mp hw
    rw [Edge.wire_target] at hr
    exact halone hcell other hother l (ContextGraph.resolveExisting_eq_some.mpr hr)
  · intro hreach
    rw [ContextGraph.wouldCycle_iff.mpr hreach] at hcycle
    exact absurd hcycle (by simp)

theorem wellWired_drop (h : ctx.graph.wiring.WellWired) (keep : Edge → Bool) :
    (wiringOf ctx.outline (ctx.graph.edges.filter keep)).WellWired := by
  rw [Ctx.wiring_eq] at h
  have hsub : ((ctx.graph.edges.filter keep).map Edge.wire).Sublist
      (wiringOf ctx.outline ctx.graph.edges).wires := List.filter_sublist.map _
  exact h.sublist hsub

theorem below_iff {path viewPath : Path} : below path viewPath = true ↔ path <+: viewPath := by
  unfold below
  rw [decide_eq_true_iff, List.prefix_iff_eq_take, eq_comm]

theorem wellWired_remove (h : ctx.graph.wiring.WellWired) (path : NodePath) :
    (wiringOf (fun q => if below path q then none else ctx.outline q)
      (ctx.graph.edges.filter fun edge =>
        !below path edge.source && !below path edge.target)).WellWired := by
  rw [Ctx.wiring_eq] at h
  have hremove := h.remove (below path) (fun wire =>
    !below path wire.source.flat && !below path wire.target.flat) (fun wire _ hk => ?_)
  · refine cast (congrArg Wiring.WellWired ?_) hremove
    unfold Wiring.remove wiringOf
    refine Wiring.mk.injEq .. |>.mpr ⟨funext fun q => ?_, ?_⟩
    · by_cases hq : below path q = true <;> simp [hq]
    · rw [List.filter_map]
      refine congrArg _ (List.filter_congr fun edge _ => ?_)
      simp only [Function.comp_apply, Edge.wire_source, Edge.wire_target]
  · simp only [Bool.and_eq_true, Bool.not_eq_true'] at hk
    have clear : ∀ {flat n l : Path}, below path flat = false →
        (wiringOf ctx.outline ctx.graph.edges).Resolves flat n l → below path n = false := by
      intro flat n l hflat hr
      by_contra hn
      rw [Bool.not_eq_false, below_iff] at hn
      have : below path flat = true := below_iff.mpr (hn.trans ⟨l, hr.flat⟩)
      rw [hflat] at this
      exact absurd this (by simp)
    exact ⟨fun n l => clear hk.1, fun n l => clear hk.2⟩

theorem wiringOf_update (outline : NodePath → Option Outline) (edges : List Edge)
    (path : NodePath) (node : Outline) :
    wiringOf (Function.update outline path (some node)) edges =
      (wiringOf outline edges).put path node.isCell := by
  unfold wiringOf Wiring.put
  refine Wiring.mk.injEq .. |>.mpr ⟨funext fun q => ?_, rfl⟩
  by_cases hq : q = path
  · subst hq; simp
  · simp [hq]

/-- The celltype of a node is no matter of the wiring. -/
theorem wiringOf_recast {outline : NodePath → Option Outline} {path : NodePath} {node : Outline}
    (hnode : outline path = some node) (celltype : Celltype) (edges : List Edge) :
    wiringOf (Function.update outline path (some { node with celltype })) edges =
      wiringOf outline edges := by
  unfold wiringOf
  refine Wiring.mk.injEq .. |>.mpr ⟨funext fun q => ?_, rfl⟩
  by_cases hq : q = path
  · subst hq
    simp [hnode]
  · simp [hq]

theorem wellWired_create (h : ctx.graph.wiring.WellWired) {path : NodePath} {node : Outline}
    (hpath : path ∉ ctx.graph.nodes) :
    (wiringOf (Function.update ctx.outline path (some node)) ctx.graph.edges).WellWired := by
  rw [wiringOf_update]
  rw [Ctx.wiring_eq] at h
  refine h.create node.isCell ?_
  rw [mem_nodes_iff_outline, Bool.not_eq_true, Option.isSome_eq_false_iff,
    Option.isNone_iff_eq_none] at hpath
  show (ctx.outline path).map Outline.isCell = none
  rw [hpath]
  rfl

theorem wellWired_retype (h : ctx.graph.wiring.WellWired) {path : NodePath} {node : Outline}
    (hnode : ctx.outline path = some node) (celltype : Celltype) :
    (wiringOf (Function.update ctx.outline path (some ⟨true, node.ident, celltype⟩))
      (ctx.graph.replaceEdgesTo path).edges).WellWired := by
  rw [wiringOf_update]
  have hdropped := wellWired_drop h fun edge =>
    !decide ((ctx.graph.resolveExisting edge.target).map Prod.fst = some path)
  refine hdropped.replace true ?_ fun wire hw l hr => ?_
  · show ((ctx.outline path).map Outline.isCell).isSome = true
    rw [hnode]
    rfl
  · obtain ⟨edge, hedge, rfl⟩ := List.mem_map.mp hw
    have hkeep := (List.mem_filter.mp hedge).2
    have hr' : ctx.graph.wiring.Resolves edge.target path l := by
      rw [← Edge.wire_target, Ctx.wiring_eq]
      exact hr
    rw [ContextGraph.resolveExisting_eq_some.mpr hr'] at hkeep
    simp at hkeep

end Moves

end SeamlessWorkflow
