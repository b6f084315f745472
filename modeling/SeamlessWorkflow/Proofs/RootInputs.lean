import SeamlessWorkflow.Proofs.UpheldTurns
import SeamlessWorkflow.Proofs.DerivedNodes
import SeamlessWorkflow.Proofs.WiringInvariant

/-!
# The root inputs of a cell

The value of a cell as a whole comes from an edge, from a root expression or from a stored value.
Most changes of a Context add none of these.
-/

namespace SeamlessWorkflow

open Program Relation

/-- The cell at a path. -/
def Ctx.cell? (ctx : Ctx) (path : NodePath) : Option CellFields :=
  (ctx.node? path).bind Node.cellFields

/-- The root expression of the cell at a path. -/
def Ctx.expressionAt (ctx : Ctx) (path : NodePath) : Option RootExpression :=
  (ctx.cell? path).bind CellFields.rootExpression

/-- The stored value of the cell at a path. -/
def Ctx.producerAt (ctx : Ctx) (path : NodePath) : Option ConstantProducer :=
  (ctx.cell? path).bind CellFields.rootProducer

/-- The edges into a cell as a whole. -/
def ContextGraph.rootEdges (g : ContextGraph) (path : NodePath) : List Edge :=
  g.edges.filter fun edge => decide (g.resolveExisting edge.target = some (path, []))

/-- How many root inputs a cell has. -/
def Ctx.rootInputs (ctx : Ctx) (path : NodePath) : Nat :=
  (ctx.graph.rootEdges path).length + (ctx.expressionAt path).toList.length +
    (ctx.producerAt path).toList.length

/-- No edge shares its target with another edge, a root expression or a stored value, and no cell has
both of the latter. -/
structure Ctx.OneRoot (ctx : Ctx) : Prop where
  named : ∀ edge ∈ ctx.graph.edges, edge.target ≠ []
  targets : (ctx.graph.edges.map Edge.target).Nodup
  alone : ∀ path, ctx.expressionAt path = none ∨ ctx.producerAt path = none
  unwired : ∀ edge ∈ ctx.graph.edges,
    ctx.expressionAt edge.target = none ∧ ctx.producerAt edge.target = none

theorem target_of_root {g : ContextGraph} {edge : Edge} {path : NodePath}
    (h : g.resolveExisting edge.target = some (path, [])) : edge.target = path := by
  have := (ContextGraph.resolveExisting_eq_some.mp h).flat
  simpa using this.symm

theorem resolveExisting_self {g : ContextGraph} {path : NodePath} (hp : path ∈ g.nodes)
    (hne : path ≠ []) : g.resolveExisting path = some (path, []) := by
  refine ContextGraph.resolveExisting_eq_some.mpr ⟨hne, ?_, List.append_nil path, fun m _ hm => ?_⟩
  · rw [ContextGraph.stands_wiring]
    exact decide_eq_true hp
  · exact hm.length_le

theorem length_le_one_of_same {α β : Type} {f : α → β} {l : List α} (hd : (l.map f).Nodup)
    {b : β} (hb : ∀ a ∈ l, f a = b) : l.length ≤ 1 := by
  match l with
  | [] => exact Nat.zero_le 1
  | [_] => exact le_rfl
  | a :: a' :: l =>
    have ha := hb a (by simp)
    have ha' := hb a' (by simp)
    simp [ha, ha'] at hd

/-- A cell has one root input at most. -/
theorem Ctx.OneRoot.rootInputs_le {ctx : Ctx} (h : ctx.OneRoot) (path : NodePath) :
    ctx.rootInputs path ≤ 1 := by
  unfold Ctx.rootInputs
  have hroot : ∀ edge ∈ ctx.graph.rootEdges path, edge ∈ ctx.graph.edges ∧ edge.target = path := by
    intro edge he
    obtain ⟨hm, hr⟩ := List.mem_filter.mp he
    exact ⟨hm, target_of_root (of_decide_eq_true hr)⟩
  have hedges : (ctx.graph.rootEdges path).length ≤ 1 :=
    length_le_one_of_same (f := Edge.target)
      ((List.filter_sublist.map _).nodup h.targets) fun edge he => (hroot edge he).2
  by_cases hnone : ctx.graph.rootEdges path = []
  · rw [hnone]
    rcases h.alone path with he | he
    · rw [he]
      cases ctx.producerAt path <;> simp
    · rw [he]
      cases ctx.expressionAt path <;> simp
  · obtain ⟨edge, he⟩ := List.exists_mem_of_ne_nil _ hnone
    obtain ⟨hm, rfl⟩ := hroot edge he
    obtain ⟨hx, hp⟩ := h.unwired edge hm
    rw [hx, hp]
    simpa using hedges

/-- Derivation and the tables of references keep the fields of the cells. -/
theorem cell?_of_durable {a b : Ctx} (h : b.durable = a.durable) (path : NodePath) :
    b.cell? path = a.cell? path := by
  have hnode := congrFun (congrArg Durable.node h) path
  have hcell : ∀ node : Node, node.durable.cellFields = node.cellFields := by
    intro node
    unfold Node.durable Node.cellFields
    cases node.body <;> rfl
  have := congrArg (Option.bind · Node.cellFields) hnode
  simpa [Ctx.durable, Ctx.cell?, Option.bind_map, Function.comp_def, hcell] using this

/-! ## Changes that add no root input -/

/-- No edge, root expression or stored value is added. -/
structure FewerRoots (ctx ctx' : Ctx) : Prop where
  edges : ctx'.graph.edges.Sublist ctx.graph.edges
  expressions : ∀ path, ctx'.expressionAt path = none ∨
    ctx'.expressionAt path = ctx.expressionAt path
  producers : ∀ path, ctx'.producerAt path = none ∨ ctx'.producerAt path = ctx.producerAt path

namespace FewerRoots

theorem refl (ctx : Ctx) : FewerRoots ctx ctx := ⟨.refl _, fun _ => Or.inr rfl, fun _ => Or.inr rfl⟩

theorem expression {a b : Ctx} (h : FewerRoots a b) {path : NodePath}
    (hn : a.expressionAt path = none) : b.expressionAt path = none := by
  rcases h.expressions path with he | he
  · exact he
  · exact he.trans hn

theorem producer {a b : Ctx} (h : FewerRoots a b) {path : NodePath}
    (hn : a.producerAt path = none) : b.producerAt path = none := by
  rcases h.producers path with he | he
  · exact he
  · exact he.trans hn

theorem trans {a b c : Ctx} (h : FewerRoots a b) (h' : FewerRoots b c) : FewerRoots a c where
  edges := h'.edges.trans h.edges
  expressions path := by
    rcases h'.expressions path with he | he
    · exact Or.inl he
    · rw [he]; exact h.expressions path
  producers path := by
    rcases h'.producers path with he | he
    · exact Or.inl he
    · rw [he]; exact h.producers path

theorem oneRoot {a b : Ctx} (h : FewerRoots a b) (ha : a.OneRoot) : b.OneRoot where
  named edge he := ha.named edge (h.edges.subset he)
  targets := (h.edges.map _).nodup ha.targets
  alone path := (ha.alone path).imp h.expression h.producer
  unwired edge he :=
    ⟨h.expression (ha.unwired edge (h.edges.subset he)).1,
      h.producer (ha.unwired edge (h.edges.subset he)).2⟩

/-- The fields of the cells and the edges stay. -/
theorem of_cells {a b : Ctx} (hedges : b.graph.edges.Sublist a.graph.edges)
    (hcells : ∀ path, b.cell? path = a.cell? path) : FewerRoots a b where
  edges := hedges
  expressions path := Or.inr (by unfold Ctx.expressionAt; rw [hcells])
  producers path := Or.inr (by unfold Ctx.producerAt; rw [hcells])

theorem of_graph {a b : Ctx} (h : b.graph = a.graph) : FewerRoots a b :=
  of_cells (by rw [h]) fun path => by unfold Ctx.cell? Ctx.node?; rw [h]

theorem foldl {α : Type} {f : Ctx → α → Ctx} (h : ∀ ctx a, FewerRoots ctx (f ctx a)) (as : List α)
    (ctx : Ctx) : FewerRoots ctx (as.foldl f ctx) := by
  induction as generalizing ctx with
  | nil => exact refl ctx
  | cons a as ih => exact (h ctx a).trans (ih (f ctx a))

theorem of_durable {a b : Ctx} (h : b.durable = a.durable) : FewerRoots a b := by
  have hedges : b.graph.edges = a.graph.edges := congrArg Durable.edges h
  exact of_cells (by rw [hedges]) (cell?_of_durable h)

/-- A change of the graph that keeps the fields of the cells and adds no edge. -/
theorem modifyGraph {ctx : Ctx} {f : ContextGraph → ContextGraph}
    (hedges : (f ctx.graph).edges.Sublist ctx.graph.edges)
    (hnodes : (f ctx.graph).nodes = ctx.graph.nodes) : FewerRoots ctx (ctx.modifyGraph f) :=
  of_cells hedges fun path => by
    unfold Ctx.cell? Ctx.node?
    rw [show (ctx.modifyGraph f).graph.nodes = ctx.graph.nodes from hnodes]

end FewerRoots

/-- A change of one node that adds no root input to it. -/
theorem fewerRoots_updateNode {f : Node → Node} (path : NodePath)
    (hf : ∀ node, ((f node).cellFields.bind CellFields.rootExpression = none ∨
        (f node).cellFields.bind CellFields.rootExpression =
          node.cellFields.bind CellFields.rootExpression) ∧
      ((f node).cellFields.bind CellFields.rootProducer = none ∨
        (f node).cellFields.bind CellFields.rootProducer =
          node.cellFields.bind CellFields.rootProducer)) (ctx : Ctx) :
    FewerRoots ctx (ctx.modifyGraph fun g => g.updateNode path f) := by
  have hlookup : ∀ q, (ctx.modifyGraph fun g => g.updateNode path f).node? q =
      if q = path then (ctx.node? path).map f else ctx.node? q :=
    fun q => ContextGraph.lookup_updateNode _ _ _ _
  refine ⟨?_, fun q => ?_, fun q => ?_⟩
  · show (ctx.graph.updateNode path f).edges.Sublist _
    rw [ContextGraph.updateNode_edges]
  · unfold Ctx.expressionAt Ctx.cell?
    rw [hlookup]
    by_cases hq : q = path
    · rw [if_pos hq, hq]
      cases ctx.node? path with
      | none => exact Or.inl rfl
      | some node => exact (hf node).1
    · rw [if_neg hq]
      exact Or.inr rfl
  · unfold Ctx.producerAt Ctx.cell?
    rw [hlookup]
    by_cases hq : q = path
    · rw [if_pos hq, hq]
      cases ctx.node? path with
      | none => exact Or.inl rfl
      | some node => exact (hf node).2
    · rw [if_neg hq]
      exact Or.inr rfl

theorem cellFields_mapTransformer (f : TransformerFields → TransformerFields) (node : Node) :
    (node.mapTransformer f).cellFields = node.cellFields := by
  unfold Node.mapTransformer Node.cellFields
  cases h : node.body <;> simp [h]

theorem cellFields_mapCell (f : CellFields → CellFields) (node : Node) :
    (node.mapCell f).cellFields = node.cellFields.map f := by
  unfold Node.mapCell Node.cellFields
  cases h : node.body <;> simp [h]

/-! ## Programs that add no root input -/

section Programs

variable {env : Substrate} {start : Ctx}

/-- The program adds no root input. -/
abbrev AddsNone (start : Ctx) {α : Type} (program : M α) : Prop := Keeps (FewerRoots start) program

theorem addsNone_modify {f : Ctx → Ctx} (h : ∀ ctx, FewerRoots ctx (f ctx)) :
    AddsNone start (modify f : M Unit) := Keeps.modify fun ctx hc => hc.trans (h ctx)

theorem addsNone_modifyNode (path : NodePath) {f : Node → Node}
    (hf : ∀ node, (f node).cellFields = node.cellFields) : AddsNone start (modifyNode path f) :=
  addsNone_modify (fewerRoots_updateNode path fun node => by
    rw [hf]
    exact ⟨Or.inr rfl, Or.inr rfl⟩)

theorem addsNone_mapTransformer (path : NodePath) (f : TransformerFields → TransformerFields) :
    AddsNone start (modifyNode path (Node.mapTransformer f)) :=
  addsNone_modifyNode path (cellFields_mapTransformer f)

/-- A change of the fields of a cell that adds no root input. -/
theorem addsNone_mapCell (path : NodePath) {f : CellFields → CellFields}
    (hexpression : ∀ fields, (f fields).rootExpression = none ∨
      (f fields).rootExpression = fields.rootExpression)
    (hproducer : ∀ fields, (f fields).rootProducer = none ∨
      (f fields).rootProducer = fields.rootProducer) :
    AddsNone start (modifyNode path (Node.mapCell f)) := by
  refine addsNone_modify (fewerRoots_updateNode path fun node => ?_)
  rw [cellFields_mapCell]
  cases node.cellFields with
  | none => exact ⟨Or.inl rfl, Or.inl rfl⟩
  | some fields => exact ⟨hexpression fields, hproducer fields⟩

theorem addsNone_deriveAll : AddsNone start (deriveAll env) :=
  deriveAll_keeps (fun _ _ hd h => h.trans (.of_durable hd)) env

theorem addsNone_removeEdges (path : NodePath) (localPath : Path) :
    AddsNone start (removeEdgesTargeting path localPath) :=
  addsNone_modify fun _ => .modifyGraph List.filter_sublist rfl

theorem addsNone_releaseProducer (producer : Option ConstantProducer) :
    AddsNone start (releaseProducer producer) :=
  addsNone_modify fun ctx => .of_durable (Ctx.durable_decrefAll _ ctx)

theorem addsNone_retainProducer (checksum : Checksum) (celltype : Celltype) :
    AddsNone start (retainProducer env checksum celltype) :=
  Keeps.bind (addsNone_modify fun _ => .of_graph rfl) fun _ => Keeps.pure

theorem addsNone_dropRoot (path : NodePath) : AddsNone start (replaceRootProducer path none) := by
  refine Keeps.bind (keeps_nodeAt path) fun node => ?_
  refine Keeps.bind (addsNone_mapCell path ?_ ?_) fun _ => addsNone_releaseProducer _
  · exact fun _ => Or.inr rfl
  · exact fun _ => Or.inl rfl

theorem addsNone_dropPinProducer (path : NodePath) (pin : String) :
    AddsNone start (dropPinProducer path pin) :=
  Keeps.bind (keeps_nodeAt path) fun _ =>
    Keeps.bind (addsNone_mapTransformer path _) fun _ => addsNone_releaseProducer _

theorem addsNone_dropReplaced (target : BoundEndpoint) : AddsNone start (dropReplaced target) := by
  refine Keeps.bind (keeps_nodeAt _) fun node => ?_
  refine Keeps.ite (Keeps.ite (addsNone_dropRoot _) Keeps.pure) ?_
  split
  · exact addsNone_dropPinProducer _ _
  · exact Keeps.pure

theorem addsNone_bumpRevision (path : NodePath) : AddsNone start (bumpRevision path) :=
  addsNone_modify fun _ => .of_graph rfl

theorem addsNone_clearSenseErrors (path : NodePath) :
    AddsNone start (modify (·.clearSenseErrors path) : M Unit) :=
  addsNone_modify fun _ => .of_graph rfl

theorem addsNone_cellDeletePath (path : NodePath) (localPath : Path) :
    AddsNone start (cellDeletePath env path localPath) := by
  refine Keeps.bind (keeps_refuseIf _ _ _) fun _ => Keeps.bind (addsNone_dropRoot path) fun _ => ?_
  exact Keeps.bind (addsNone_removeEdges path []) fun _ => addsNone_deriveAll

/-! ### Transformers -/

theorem addsNone_retainCodeChecksum (path : NodePath) (checksum : Option Checksum) :
    AddsNone start (retainCodeChecksum path checksum) := by
  cases checksum with
  | none => exact Keeps.pure
  | some c => exact addsNone_modify fun _ => .of_graph rfl

theorem addsNone_replaceCodeChecksum (path : NodePath) (checksum : Option Checksum) :
    AddsNone start (replaceCodeChecksum path checksum) := by
  refine addsNone_modify fun ctx => .of_graph ?_
  rw [graph_decrefAll]
  cases checksum <;> rfl

theorem addsNone_releaseCodeChecksum (path : NodePath) : AddsNone start (releaseCodeChecksum path) :=
  addsNone_modify fun ctx => .of_graph (graph_decrefAll _ ctx)

theorem addsNone_dropPins (path : NodePath) (pins : List String) :
    AddsNone start (dropPins path pins) :=
  Keeps.forM fun pin _ => Keeps.bind (addsNone_dropPinProducer path pin) fun _ =>
    addsNone_removeEdges path _

theorem addsNone_setTransformerConfig (path : NodePath)
    (f : TransformerConfig → TransformerConfig) : AddsNone start (setTransformerConfig path f) :=
  addsNone_mapTransformer path _

theorem addsNone_setCode (path : NodePath) (config : TransformerConfig) :
    AddsNone start (setTransformerCode env path (.config config)) := by
  refine Keeps.bind (keeps_transformerAt path) fun fields => ?_
  refine Keeps.bind (addsNone_setTransformerConfig path _) fun _ => ?_
  refine Keeps.bind (addsNone_dropPins path _) fun _ => ?_
  refine Keeps.bind (addsNone_removeEdges path _) fun _ => ?_
  refine Keeps.bind (addsNone_bumpRevision path) fun _ => ?_
  exact Keeps.bind (addsNone_replaceCodeChecksum path _) fun _ => addsNone_deriveAll

theorem addsNone_clearTransformerPin (path : NodePath) (pin : String) :
    AddsNone start (clearTransformerPin env path pin) := by
  refine Keeps.bind (addsNone_dropPinProducer path pin) fun _ => ?_
  refine Keeps.bind (addsNone_removeEdges path _) fun _ => ?_
  exact Keeps.bind (addsNone_mapTransformer path _) fun _ => addsNone_deriveAll

theorem addsNone_declarePin (path : NodePath) (pin : String) : AddsNone start (declarePin path pin) :=
  addsNone_mapTransformer path _

theorem addsNone_setPinProducer (path : NodePath) (pin : String) (producer : ConstantProducer) :
    AddsNone start (setPinProducer path pin producer) :=
  Keeps.bind (keeps_nodeAt path) fun _ =>
    Keeps.bind (addsNone_mapTransformer path _) fun _ => addsNone_releaseProducer _

theorem addsNone_writePin (path : NodePath) (pin : String) (checksum : Option Checksum)
    (inputCelltype : Option Celltype) :
    AddsNone start (writePin env path pin (.checksum checksum) inputCelltype) := by
  cases checksum with
  | none => exact addsNone_clearTransformerPin path pin
  | some c =>
    refine Keeps.bind (keeps_transformerAt path) fun fields => ?_
    refine Keeps.bind (addsNone_retainProducer _ _) fun producer => ?_
    refine Keeps.bind (addsNone_setPinProducer path pin producer) fun _ => ?_
    exact Keeps.bind (addsNone_removeEdges path _) fun _ => addsNone_deriveAll

theorem addsNone_deleteTransformerPin (path : NodePath) (pin : String) :
    AddsNone start (deleteTransformerPin env path pin) := by
  refine Keeps.bind (keeps_transformerAt path) fun fields => Keeps.bind (keeps_refuseIf _ _ _) fun _ => ?_
  exact Keeps.bind (addsNone_setTransformerConfig path _) fun _ => addsNone_clearTransformerPin path pin

theorem addsNone_recordPinReadError (path : NodePath) (pin : String) (readError : PinReadError) :
    AddsNone start (recordPinReadError env path pin readError) := by
  refine Keeps.bind Keeps.get fun ctx => Keeps.bind (keeps_pinSnapshot path pin) fun fields => ?_
  exact keeps_onlyIf (Keeps.bind (addsNone_mapTransformer path _) fun _ => addsNone_deriveAll)

/-! ### Configurations -/

theorem addsNone_publishConfig (path : NodePath) (revision : Nat) (config : NodeConfig) :
    AddsNone start (publishConfig env path revision config) := by
  have hcell : ∀ old new, AddsNone start (publishCell path old new) := by
    intro old new
    refine Keeps.bind Keeps.get fun ctx => Keeps.bind (keeps_refuseIf _ _ _) fun _ => ?_
    refine Keeps.bind (keeps_refuseIf _ _ _) fun _ => addsNone_mapCell path ?_ ?_
    · exact fun _ => Or.inr rfl
    · exact fun _ => Or.inr rfl
  have htransformer : ∀ old new, AddsNone start (publishTransformer path old new) := by
    intro old new
    refine Keeps.bind Keeps.get fun ctx => Keeps.bind (keeps_refuseIf _ _ _) fun _ => ?_
    refine Keeps.bind (keeps_onlyIf ?_) fun _ => addsNone_setTransformerConfig path _
    exact Keeps.bind (addsNone_dropPins path _) fun _ => addsNone_mapTransformer path _
  refine Keeps.bind Keeps.get fun ctx => Keeps.ite Keeps.pure (Keeps.bind (keeps_nodeAt path) ?_)
  intro node
  refine Keeps.bind ?_ fun _ => ?_
  · unfold publishBody
    split
    · exact hcell _ _
    · exact htransformer _ _
    · exact Keeps.bind (addsNone_modify fun _ => .of_graph rfl) fun _ => keeps_raise _ _
    · exact keeps_raise _ _
  · refine Keeps.bind (addsNone_modify fun _ => .of_graph rfl) fun _ => ?_
    exact Keeps.bind addsNone_deriveAll fun _ => Keeps.pure

/-! ### Nodes -/

theorem node?_putNode (path : NodePath) (node : Node) (ctx : Ctx) (q : NodePath) :
    (ctx.modifyGraph fun g => g.putNode path node).node? q =
      if q = path then some node else ctx.node? q := by
  unfold Ctx.node?
  show (ctx.graph.nodes.insert path node).lookup q = _
  by_cases hq : q = path
  · rw [if_pos hq, hq, AList.lookup_insert]
  · rw [if_neg hq, AList.lookup_insert_ne hq]

/-- A new node has no root input of its own. -/
theorem addsNone_putNewNode (path : NodePath) {body : NodeBody}
    (hblank : ∀ fields, body = .cell fields → fields.rootExpression = none ∧
      fields.rootProducer = none) : AddsNone start (putNewNode path body) := by
  refine addsNone_modify fun ctx => ?_
  have hnode : ∀ q, ({ ctx.modifyGraph (fun g => g.putNode path { ident := ctx.nextIdent, body := body })
      with nextIdent := ctx.nextIdent + 1 } : Ctx).node? q =
        if q = path then some { ident := ctx.nextIdent, body := body } else ctx.node? q :=
    fun q => node?_putNode path _ ctx q
  have hnew : ∀ node : Node, node.body = body →
      node.cellFields.bind CellFields.rootExpression = none ∧
        node.cellFields.bind CellFields.rootProducer = none := by
    intro node hn
    unfold Node.cellFields
    cases hb : body with
    | cell fields =>
      rw [hn, hb]
      exact hblank fields hb
    | transformer fields =>
      rw [hn, hb]
      exact ⟨rfl, rfl⟩
  refine ⟨.refl _, fun q => ?_, fun q => ?_⟩
  · unfold Ctx.expressionAt Ctx.cell?
    rw [hnode]
    by_cases hq : q = path
    · rw [if_pos hq]
      exact Or.inl (hnew { ident := ctx.nextIdent, body := body } rfl).1
    · rw [if_neg hq]
      exact Or.inr rfl
  · unfold Ctx.producerAt Ctx.cell?
    rw [hnode]
    by_cases hq : q = path
    · rw [if_pos hq]
      exact Or.inl (hnew { ident := ctx.nextIdent, body := body } rfl).2
    · rw [if_neg hq]
      exact Or.inr rfl

theorem addsNone_createTransformer (path : NodePath) (config : TransformerConfig) :
    AddsNone start (createTransformer path config) := by
  refine Keeps.bind (addsNone_putNewNode path fun fields hf => ?_) fun _ =>
    addsNone_retainCodeChecksum path _
  cases hf

theorem fewerRoots_detach (path : NodePath) (driver : String) (ctx : Ctx) :
    FewerRoots ctx (ctx.detach path driver) := by
  unfold Ctx.detach
  split
  · exact .refl ctx
  · refine FewerRoots.trans (b := { ctx with mountSessions := ctx.mountSessions.erase (path, driver) })
      (.of_graph rfl) (fewerRoots_updateNode path (fun node => ?_) _)
    split
    · exact ⟨Or.inr rfl, Or.inr rfl⟩
    · split <;> exact ⟨Or.inr rfl, Or.inr rfl⟩

theorem fewerRoots_detachAll (path : NodePath) (ctx : Ctx) : FewerRoots ctx (ctx.detachAll path) :=
  FewerRoots.foldl (f := fun ctx (key : NodePath × String) => ctx.detach path key.2)
    (fun ctx key => fewerRoots_detach path key.2 ctx) _ ctx

theorem fewerRoots_dropRuns (path : NodePath) (ctx : Ctx) : FewerRoots ctx (ctx.dropRuns path) := by
  have h := Ctx.durable_cancelRuns (ctx.runtime.recordsAt path)
    { ctx with runtime := ctx.runtime.dropNode path }
  exact .of_durable h

theorem fewerRoots_releaseCode (path : NodePath) (ctx : Ctx) :
    FewerRoots ctx (ctx.releaseCode path) := .of_graph (graph_decrefAll _ ctx)

theorem fewerRoots_eraseNode (path : NodePath) (ctx : Ctx) :
    FewerRoots ctx (ctx.modifyGraph fun g => g.eraseNode path) := by
  have hnode : ∀ q, (ctx.modifyGraph fun g => g.eraseNode path).node? q =
      if q = path then none else ctx.node? q := by
    intro q
    unfold Ctx.node?
    show (ctx.graph.nodes.erase path).lookup q = _
    by_cases hq : q = path
    · rw [if_pos hq, hq, AList.lookup_erase]
    · rw [if_neg hq, AList.lookup_erase_ne hq]
  refine ⟨.refl _, fun q => ?_, fun q => ?_⟩
  · unfold Ctx.expressionAt Ctx.cell?
    rw [hnode]
    by_cases hq : q = path
    · rw [if_pos hq]; exact Or.inl rfl
    · rw [if_neg hq]; exact Or.inr rfl
  · unfold Ctx.producerAt Ctx.cell?
    rw [hnode]
    by_cases hq : q = path
    · rw [if_pos hq]; exact Or.inl rfl
    · rw [if_neg hq]; exact Or.inr rfl

theorem fewerRoots_deleteNode (ctx : Ctx) (path : NodePath) :
    FewerRoots ctx (ctx.deleteNode path) := by
  unfold Ctx.deleteNode
  dsimp only
  refine (fewerRoots_detachAll path ctx).trans ?_
  split
  · exact .refl _
  · refine (fewerRoots_eraseNode path _).trans ?_
    refine FewerRoots.trans ?_ (fewerRoots_dropRuns path _)
    exact FewerRoots.trans (.of_graph (graph_decrefAll _ _)) (fewerRoots_releaseCode path _)

theorem fewerRoots_syncTables (ctx : Ctx) :
    FewerRoots ctx ctx.syncModuleRefholds.syncSupersededRefholds :=
  .of_durable ((Ctx.durable_syncSupersededRefholds _).trans (Ctx.durable_syncModuleRefholds ctx))

theorem addsNone_deleteSubtree (path : NodePath) : AddsNone start (deleteSubtree env path) := by
  refine Keeps.bind (keeps_sortedDescendants path) fun descendants => ?_
  refine Keeps.bind (addsNone_modify fun ctx => ?_) fun _ => ?_
  · exact FewerRoots.foldl (fun ctx path => fewerRoots_deleteNode ctx path) descendants ctx
  · refine Keeps.bind (addsNone_modify fun _ => .modifyGraph List.filter_sublist rfl) fun _ => ?_
    exact Keeps.bind (addsNone_modify fewerRoots_syncTables) fun _ => addsNone_deriveAll

theorem addsNone_delete (path : NodePath) : AddsNone start (delete env path) := by
  refine Keeps.bind (keeps_refuseIf _ _ _) fun _ => Keeps.bind Keeps.get fun ctx => ?_
  refine Keeps.ite (addsNone_deleteSubtree path) ?_
  unfold deleteInside
  split
  · exact Keeps.pure
  · refine Keeps.ite (addsNone_cellDeletePath _ _) ?_
    split
    · exact addsNone_deleteTransformerPin _ _
    · exact Keeps.pure

end Programs

end SeamlessWorkflow
