import SeamlessWorkflow.Proofs.RootInputs
import SeamlessWorkflow.Proofs.WiringResults

/-!
# Root writes

A successful root write leaves the cell with the input that it has written and no other, and
derivation uses it.
-/

namespace SeamlessWorkflow

open Program Relation

/-! ## The input that derivation uses -/

/-- What gives a cell its value as a whole. -/
inductive RootInput
  | nothing
  | edge (edge : Edge)
  | expression (expression : RootExpression)
  | producer (producer : ConstantProducer)
  deriving DecidableEq

namespace RootInput

def edges : RootInput → List Edge
  | .edge e => [e]
  | _ => []

def rootExpression : RootInput → Option RootExpression
  | .expression e => some e
  | _ => none

def rootProducer : RootInput → Option ConstantProducer
  | .producer p => some p
  | _ => none

/-- A stored value, or nothing. -/
def stored (producer : Option ConstantProducer) : RootInput :=
  (producer.map .producer).getD .nothing

@[simp] theorem stored_edges (producer : Option ConstantProducer) : (stored producer).edges = [] := by
  cases producer <;> rfl

@[simp] theorem stored_rootExpression (producer : Option ConstantProducer) :
    (stored producer).rootExpression = none := by
  cases producer <;> rfl

@[simp] theorem stored_rootProducer (producer : Option ConstantProducer) :
    (stored producer).rootProducer = producer := by
  cases producer <;> rfl

end RootInput

/-- The edges into a node. -/
def ContextGraph.edgesInto (g : ContextGraph) (path : NodePath) : List Edge :=
  g.edges.filter fun edge => decide ((g.resolveExisting edge.target).map Prod.fst = some path)

/-- The cell at a path has this root input, and no edge into a part of it. -/
structure Ctx.Takes (ctx : Ctx) (path : NodePath) (input : RootInput) : Prop where
  cell : (ctx.cell? path).isSome = true
  edges : ctx.graph.edgesInto path = input.edges
  whole : ∀ edge ∈ input.edges, ctx.graph.resolveExisting edge.target = some (path, [])
  expression : ctx.expressionAt path = input.rootExpression
  producer : ctx.producerAt path = input.rootProducer

/-- The outcome of a cell that takes its value from a root input. -/
def rootOutcome (env : Substrate) (v : View) (config : CellConfig) :
    RootInput → Evaluated Outcome
  | .nothing => pure { state := .unwired }
  | .edge edge =>
    let edge := v.graph.ownLink edge
    match v.graph.resolveExisting edge.source with
    | none => pure .miswired
    | some (sourcePath, sourceLocal) =>
      match (v.graph.nodes.lookup sourcePath).map fun s => (s.state, s.currentChecksum) with
      | some (NodeState.complete, some checksum) =>
        if sourceLocal ≠ [] && (v.graph.edgeMiswiring edge).isNone &&
            !edge.sourceConversionBefore && !edge.sourceConversion then
          directOutcome env v config edge sourcePath sourceLocal checksum
        else rootEdgeOutcome env v config edge sourcePath sourceLocal
      | _ => rootEdgeOutcome env v config edge sourcePath sourceLocal
  | .expression expression =>
    match env.computeExpression expression with
    | .ok c => pure (.complete (some c))
    | .error e => pure (.failed (some e))
  | .producer producer =>
    if producer.celltype ≠ config.celltype || config.validator.isSome then do
      let result ← projection env v producer.checksum [] producer.celltype config.celltype
        (cellPolicy config)
      pure (.ofProjected result)
    else pure (.complete (some producer.checksum))

theorem ContextGraph.incomingFor_eq (g : ContextGraph) (path : NodePath) :
    g.incomingFor path = (g.edgesInto path).foldl (g.incomingStep path) [] := by
  have loop : ∀ (edges : List Edge) (acc : List (Path × Edge)),
      edges.foldl (g.incomingStep path) acc = (edges.filter fun edge =>
        decide ((g.resolveExisting edge.target).map Prod.fst = some path)).foldl
          (g.incomingStep path) acc := by
    intro edges
    induction edges with
    | nil => exact fun _ => rfl
    | cons edge edges ih =>
      intro acc
      by_cases hr : (g.resolveExisting edge.target).map Prod.fst = some path
      · rw [List.filter_cons_of_pos (by simpa using hr), List.foldl_cons, List.foldl_cons, ih]
      · rw [List.filter_cons_of_neg (by simpa using hr), List.foldl_cons, ih]
        have hstep : g.incomingStep path acc edge = acc := by
          unfold incomingStep
          cases ht : g.resolveExisting edge.target with
          | none => rfl
          | some r =>
            obtain ⟨n, l⟩ := r
            dsimp only
            rw [if_neg]
            rintro rfl
            rw [ht] at hr
            exact hr rfl
        rw [hstep]
  exact loop g.edges []

theorem Ctx.Takes.incomingFor {ctx : Ctx} {path : NodePath} {input : RootInput}
    (h : ctx.Takes path input) :
    ctx.graph.incomingFor path = input.edges.map fun edge => ([], ctx.graph.ownLink edge) := by
  rw [ContextGraph.incomingFor_eq, h.edges]
  have hwhole := h.whole
  cases input with
  | edge edge =>
    have hr := hwhole edge (List.mem_singleton.mpr rfl)
    unfold RootInput.edges
    simp [ContextGraph.incomingStep, hr, Dict.setItem]
  | nothing => rfl
  | expression expression => rfl
  | producer producer => rfl

/-- The derivation of a cell uses the input that it takes. -/
theorem Ctx.Takes.derives {ctx : Ctx} {path : NodePath} {fields : CellFields} {input : RootInput}
    (h : ctx.Takes path input) (hf : ctx.cell? path = some fields) (env : Substrate) :
    cellOutcome env ctx.view [] path fields = rootOutcome env ctx.view fields.config input := by
  have hexpression : fields.rootExpression = input.rootExpression := by
    rw [← h.expression]
    unfold Ctx.expressionAt
    rw [hf]
    rfl
  have hproducer : fields.rootProducer = input.rootProducer := by
    rw [← h.producer]
    unfold Ctx.producerAt
    rw [hf]
    rfl
  unfold cellOutcome
  dsimp only
  rw [show ctx.view.graph.incomingFor path = _ from h.incomingFor]
  unfold ownOutcome
  rw [hexpression, hproducer]
  cases input <;> rfl

/-! ## Contexts with the same root inputs -/

/-- The nodes, the fields of the cells and the edges are those of another Context. -/
structure SameRoots (ctx ctx' : Ctx) : Prop where
  edges : ctx'.graph.edges = ctx.graph.edges
  mem : ∀ path, path ∈ ctx'.graph.nodes ↔ path ∈ ctx.graph.nodes
  cells : ∀ path, ctx'.cell? path = ctx.cell? path

namespace SameRoots

theorem refl (ctx : Ctx) : SameRoots ctx ctx := ⟨rfl, fun _ => Iff.rfl, fun _ => rfl⟩

theorem trans {a b c : Ctx} (h : SameRoots a b) (h' : SameRoots b c) : SameRoots a c :=
  ⟨h'.edges.trans h.edges, fun path => (h'.mem path).trans (h.mem path),
    fun path => (h'.cells path).trans (h.cells path)⟩

theorem of_graph {a b : Ctx} (h : b.graph = a.graph) : SameRoots a b :=
  ⟨by rw [h], fun _ => by rw [h], fun _ => by unfold Ctx.cell? Ctx.node?; rw [h]⟩

theorem of_durable {a b : Ctx} (h : b.durable = a.durable) : SameRoots a b := by
  refine ⟨congrArg Durable.edges h, fun path => ?_, cell?_of_durable h⟩
  have := congrArg Option.isSome (congrFun (congrArg Durable.node h) path)
  simp only [Ctx.durable, Option.isSome_map] at this
  rw [← AList.lookup_isSome, ← AList.lookup_isSome]
  exact iff_of_eq (congrArg (· = true) this)

theorem resolveExisting {a b : Ctx} (h : SameRoots a b) :
    b.graph.resolveExisting = a.graph.resolveExisting := ContextGraph.resolveExisting_congr h.mem

theorem fewer {a b : Ctx} (h : SameRoots a b) : FewerRoots a b := .of_cells (by rw [h.edges]) h.cells

theorem takes {a b : Ctx} (h : SameRoots a b) {path : NodePath} {input : RootInput}
    (ht : a.Takes path input) : b.Takes path input where
  cell := by rw [h.cells]; exact ht.cell
  edges := by
    rw [← ht.edges]
    unfold ContextGraph.edgesInto
    rw [h.edges, h.resolveExisting]
  whole := by rw [h.resolveExisting]; exact ht.whole
  expression := by
    rw [← ht.expression]
    unfold Ctx.expressionAt
    rw [h.cells]
  producer := by
    rw [← ht.producer]
    unfold Ctx.producerAt
    rw [h.cells]

end SameRoots

/-- The fields of one cell and the edges are changed. -/
structure RootSet (ctx : Ctx) (path : NodePath) (f : CellFields → CellFields) (edges : List Edge)
    (ctx' : Ctx) : Prop where
  edges : ctx'.graph.edges = edges
  mem : ∀ q, q ∈ ctx'.graph.nodes ↔ q ∈ ctx.graph.nodes
  cells : ∀ q, ctx'.cell? q = if q = path then (ctx.cell? path).map f else ctx.cell? q

namespace RootSet

variable {a b c : Ctx} {path : NodePath} {f f' : CellFields → CellFields} {edges edges' : List Edge}

theorem same (h : RootSet a path f edges b) (h' : SameRoots b c) : RootSet a path f edges c :=
  ⟨h'.edges.trans h.edges, fun q => (h'.mem q).trans (h.mem q),
    fun q => (h'.cells q).trans (h.cells q)⟩

theorem trans (h : RootSet a path f edges b) (h' : RootSet b path f' edges' c) :
    RootSet a path (f' ∘ f) edges' c := by
  refine ⟨h'.edges, fun q => (h'.mem q).trans (h.mem q), fun q => ?_⟩
  rw [h'.cells, h.cells, h.cells, if_pos rfl, Option.map_map]
  split <;> rfl

theorem of_same (h : SameRoots a b) : RootSet a path id b.graph.edges b := by
  refine ⟨rfl, h.mem, fun q => ?_⟩
  rw [h.cells, Option.map_id]
  by_cases hq : q = path
  · rw [if_pos hq, hq]; rfl
  · rw [if_neg hq]

theorem resolveExisting (h : RootSet a path f edges b) :
    b.graph.resolveExisting = a.graph.resolveExisting := ContextGraph.resolveExisting_congr h.mem

theorem expressionAt (h : RootSet a path f edges b) (q : NodePath) : b.expressionAt q =
    if q = path then (a.cell? path).bind fun fields => (f fields).rootExpression
    else a.expressionAt q := by
  unfold Ctx.expressionAt
  rw [h.cells]
  by_cases hq : q = path
  · rw [if_pos hq, if_pos hq, Option.bind_map]
    rfl
  · rw [if_neg hq, if_neg hq]

theorem producerAt (h : RootSet a path f edges b) (q : NodePath) : b.producerAt q =
    if q = path then (a.cell? path).bind fun fields => (f fields).rootProducer
    else a.producerAt q := by
  unfold Ctx.producerAt
  rw [h.cells]
  by_cases hq : q = path
  · rw [if_pos hq, if_pos hq, Option.bind_map]
    rfl
  · rw [if_neg hq, if_neg hq]

/-- A root write of an input other than an edge, once the edges into the cell are gone. -/
theorem oneRoot (h : RootSet a path f edges b) (ha : a.OneRoot) (hsub : edges.Sublist a.graph.edges)
    (hf : ∀ fields, a.cell? path = some fields →
      (f fields).rootExpression = none ∨ (f fields).rootProducer = none)
    (hfree : ∀ edge ∈ edges, edge.target ≠ path) : b.OneRoot := by
  refine ⟨fun edge he => ?_, ?_, fun q => ?_, fun edge he => ?_⟩
  · rw [h.edges] at he
    exact ha.named edge (hsub.subset he)
  · rw [h.edges]
    exact (hsub.map _).nodup ha.targets
  · rw [h.expressionAt, h.producerAt]
    by_cases hq : q = path
    · rw [if_pos hq, if_pos hq]
      cases hcell : a.cell? path with
      | none => exact Or.inl rfl
      | some fields => exact hf fields hcell
    · rw [if_neg hq, if_neg hq]
      exact ha.alone q
  · rw [h.edges] at he
    rw [h.expressionAt, h.producerAt, if_neg (hfree edge he), if_neg (hfree edge he)]
    exact ha.unwired edge (hsub.subset he)

theorem takes (h : RootSet a path f edges b) {fields : CellFields} {input : RootInput}
    (hcell : a.cell? path = some fields) (hnone : input.edges = [])
    (hfree : ∀ edge ∈ edges, (a.graph.resolveExisting edge.target).map Prod.fst ≠ some path)
    (hexpression : (f fields).rootExpression = input.rootExpression)
    (hproducer : (f fields).rootProducer = input.rootProducer) : b.Takes path input where
  cell := by
    rw [h.cells, if_pos rfl, hcell]
    rfl
  edges := by
    rw [hnone]
    unfold ContextGraph.edgesInto
    rw [h.edges, h.resolveExisting]
    exact List.filter_eq_nil_iff.mpr fun edge he => by simpa using hfree edge he
  whole edge he := by
    rw [hnone] at he
    exact absurd he List.not_mem_nil
  expression := by rw [h.expressionAt, if_pos rfl, hcell, ← hexpression]; rfl
  producer := by rw [h.producerAt, if_pos rfl, hcell, ← hproducer]; rfl

end RootSet

/-! ## The writes of a cell -/

section Writes

variable {env : Substrate} {start : Ctx}

/-- A program that is known for each state that it may start from. -/
theorem triple_each {α : Type} {P E : Ctx → Prop} {program : M α} {Q : α → Ctx → Prop}
    (h : ∀ ctx, P ctx → Triple (· = ctx) program Q E) : Triple P program Q E :=
  fun ctx hctx => h ctx hctx ctx rfl

theorem rootSet_mapCell (path : NodePath) (f : CellFields → CellFields) (ctx : Ctx) :
    RootSet ctx path f ctx.graph.edges
      (ctx.modifyGraph fun g => g.updateNode path (Node.mapCell f)) := by
  refine ⟨by simp [Ctx.modifyGraph], fun q => ?_, fun q => ?_⟩
  · rw [← AList.lookup_isSome, ← AList.lookup_isSome]
    show ((ctx.graph.updateNode path (Node.mapCell f)).nodes.lookup q).isSome = true ↔ _
    rw [ContextGraph.lookup_updateNode]
    by_cases hq : q = path
    · rw [if_pos hq, hq, Option.isSome_map]
    · rw [if_neg hq]
  · unfold Ctx.cell? Ctx.node?
    show ((ctx.graph.updateNode path (Node.mapCell f)).nodes.lookup q).bind _ = _
    rw [ContextGraph.lookup_updateNode]
    by_cases hq : q = path
    · rw [if_pos hq, if_pos hq]
      cases ctx.graph.nodes.lookup path with
      | none => rfl
      | some node => exact cellFields_mapCell f node
    · rw [if_neg hq, if_neg hq]

theorem sameRoots_decrefAll (cs : List Checksum) (ctx : Ctx) : SameRoots ctx (ctx.decrefAll cs) :=
  .of_graph (graph_decrefAll cs ctx)

/-- Give a cell another stored value. -/
def CellFields.storing (producer : Option ConstantProducer) (fields : CellFields) : CellFields :=
  { fields with rootProducer := producer }

theorem replaceRootProducer_result (path : NodePath) (producer : Option ConstantProducer) :
    Triple (· = start) (replaceRootProducer path producer)
      (fun _ => RootSet start path (CellFields.storing producer) start.graph.edges)
      (FewerRoots start) := by
  refine Triple.inspect (inspects_nodeAt path) (fun ctx hc => hc ▸ .refl _) fun node => ?_
  refine Triple.bind (R := fun _ =>
    RootSet start path (CellFields.storing producer) start.graph.edges)
    (Triple.modify fun ctx hc => ?_) fun _ => Triple.modify fun ctx hc => ?_
  · rw [hc.1]
    exact rootSet_mapCell path _ start
  · exact hc.same (sameRoots_decrefAll _ ctx)

/-- The stored value that a write of a checksum gives. -/
def writtenProducer (env : Substrate) (checksum : Option Checksum) (celltype : Celltype) :
    Option ConstantProducer :=
  checksum.map fun c => (⟨c, celltype⟩ : ConstantProducer).canonical env

theorem storeRoot_result (path : NodePath) (checksum : Option Checksum) (celltype : Celltype) :
    Triple (· = start) (storeRoot env path checksum celltype)
      (fun _ => RootSet start path (CellFields.storing (writtenProducer env checksum celltype))
        start.graph.edges) (FewerRoots start) := by
  cases checksum with
  | none => exact replaceRootProducer_result path none
  | some c =>
    refine Triple.inspect (inspects_cellAt path) (fun ctx hc => hc ▸ .refl _) fun fields => ?_
    refine Triple.bind (R := fun producer ctx => SameRoots start ctx ∧
      producer = (⟨c, celltype⟩ : ConstantProducer).canonical env) ?_ fun producer => ?_
    · refine Triple.bind (R := fun _ => SameRoots start) (Triple.modify fun ctx hc => ?_) fun _ =>
        Triple.pure fun ctx hc => ⟨hc, rfl⟩
      rw [hc.1]
      exact .of_graph rfl
    · refine triple_each fun ctx hc => ?_
      obtain ⟨hsame, rfl⟩ := hc
      refine (replaceRootProducer_result path _).conseq (fun _ h => h) (fun _ ctx' hset => ?_)
        fun ctx' hf => hsame.fewer.trans hf
      have hkept : RootSet start path id ctx.graph.edges ctx := .of_same hsame
      have := hkept.trans hset
      rw [hsame.edges] at this
      exact this

/-- The edges that are left when those into a node are removed. -/
theorem free_removeEdges {g : ContextGraph} {path : NodePath} {edge : Edge}
    (h : edge ∈ (g.removeEdgesTargeting path [] true).edges) :
    (g.resolveExisting edge.target).map Prod.fst ≠ some path := by
  have := (List.mem_filter.mp h).2
  intro hr
  cases ht : g.resolveExisting edge.target with
  | none => rw [ht] at hr; cases hr
  | some r =>
    obtain ⟨n, l⟩ := r
    rw [ht] at hr this
    cases hr
    simp at this

/-- The edges after a write: those into the cell are removed, or stay. -/
def ContextGraph.cleared (g : ContextGraph) (path : NodePath) (clear : Prop) [Decidable clear] :
    List Edge :=
  if clear then (g.removeEdgesTargeting path [] true).edges else g.edges

theorem cleared_sublist (g : ContextGraph) (path : NodePath) (clear : Prop) [Decidable clear] :
    (g.cleared path clear).Sublist g.edges := by
  unfold ContextGraph.cleared
  split
  · exact List.filter_sublist
  · exact .refl _

theorem removeEdges_cleared {path : NodePath} {f : CellFields → CellFields} {clear : Prop}
    [Decidable clear] {E : Ctx → Prop} :
    Triple (RootSet start path f start.graph.edges) (onlyIf clear (removeEdgesTargeting path []))
      (fun _ => RootSet start path f (start.graph.cleared path clear)) E := by
  refine Triple.ite (fun hc => Triple.modify fun ctx h => ?_) fun hc => Triple.pure fun ctx h => ?_
  · refine ⟨?_, h.mem, h.cells⟩
    unfold ContextGraph.cleared ContextGraph.removeEdgesTargeting
    rw [if_pos hc, ← h.resolveExisting, ← h.edges]
    rfl
  · unfold ContextGraph.cleared
    rw [if_neg hc]
    exact h

theorem setCellRoot_result (path : NodePath) (checksum : Option Checksum) (celltype : Celltype)
    (clearEdges : Bool) :
    Triple (· = start) (setCellRoot env path checksum celltype clearEdges)
      (fun _ => RootSet start path (CellFields.storing (writtenProducer env checksum celltype))
        (start.graph.cleared path clearEdges)) (FewerRoots start) := by
  refine Triple.get_bind fun ctx => ?_
  refine Triple.inspect (inspects_refuseIf _ _ _) (fun ctx hc => hc.2 ▸ .refl _) fun _ => ?_
  refine Triple.bind (R := fun _ => SameRoots start) (Triple.modify fun ctx hc => ?_) fun _ => ?_
  · rw [hc.1.2]
    exact .of_graph rfl
  refine Triple.bind (R := fun _ => RootSet start path (CellFields.storing
    (writtenProducer env checksum celltype)) start.graph.edges) (triple_each fun ctx hsame => ?_)
      fun _ => ?_
  · refine (storeRoot_result path checksum celltype).conseq (fun _ h => h) (fun _ ctx' hset => ?_)
      fun ctx' hf => hsame.fewer.trans hf
    have hkept : RootSet start path id ctx.graph.edges ctx := .of_same hsame
    have := hkept.trans hset
    rw [hsame.edges] at this
    exact this
  · refine Triple.bind (R := fun _ => RootSet start path (CellFields.storing
      (writtenProducer env checksum celltype)) start.graph.edges) (Triple.modify fun ctx hc => ?_)
        fun _ => removeEdges_cleared
    exact hc.same (.of_graph rfl)

/-- Give a cell a configuration and an input, as a builder does. -/
def CellFields.installing (config : CellConfig) (producer : Option ConstantProducer)
    (expression : Option RootExpression) (fields : CellFields) : CellFields :=
  { fields with config := config, rootExpression := expression, rootProducer := producer }

theorem installCell_result (path : NodePath) (config : CellConfig)
    (producer : Option ConstantProducer) (expression : Option RootExpression) (bump : Bool) :
    Triple (fun ctx => ctx = start ∧ path ∈ ctx.graph.nodes)
      (installCell path config producer expression bump)
      (fun _ => RootSet start path (CellFields.installing config producer expression)
        (start.graph.removeEdgesTargeting path [] true).edges) (FewerRoots start) := by
  refine Triple.bind (R := fun _ ctx => path ∈ ctx.graph.nodes ∧ RootSet start path (fun fields =>
    { fields with config := config, rootExpression := expression }) start.graph.edges ctx)
    (Triple.modify fun ctx hc => ?_) fun _ => ?_
  · obtain ⟨rfl, hp⟩ := hc
    have hset := rootSet_mapCell path (fun fields =>
      { fields with config := config, rootExpression := expression }) ctx
    exact ⟨(hset.mem path).mpr hp, hset⟩
  -- the node exists, so that the stored value can be replaced
  refine Triple.bind (R := fun _ => RootSet start path
    (CellFields.installing config producer expression) start.graph.edges) ?_ fun _ => ?_
  · refine Triple.bind (R := fun _ => RootSet start path (fun fields =>
      { fields with config := config, rootExpression := expression }) start.graph.edges) ?_ fun node => ?_
    · refine Triple.get_bind fun ctx => ?_
      cases hn : ctx.node? path with
      | some node => exact Triple.pure fun _ hc => hc.2.2
      | none =>
        refine Triple.assume (c := False) (fun ctx' hc => ?_) False.elim
        obtain ⟨rfl, hp, -⟩ := hc
        rw [← AList.lookup_isSome] at hp
        unfold Ctx.node? at hn
        rw [hn] at hp
        cases hp
    · refine Triple.bind (R := fun _ => RootSet start path
        (CellFields.installing config producer expression) start.graph.edges)
        (Triple.modify fun ctx hc => ?_) fun _ => Triple.modify fun ctx hc => ?_
      · have := hc.trans (rootSet_mapCell path (CellFields.storing producer) ctx)
        rw [hc.edges] at this
        exact this
      · exact hc.same (sameRoots_decrefAll _ ctx)
  · refine Triple.bind (R := fun _ => RootSet start path
      (CellFields.installing config producer expression) start.graph.edges) ?_ fun _ => ?_
    · refine Triple.ite (fun _ => Triple.modify fun ctx hc => ?_) fun _ => Triple.pure fun ctx hc => hc
      exact hc.same (.of_graph rfl)
    · exact Triple.modify fun ctx h => ⟨by
        unfold ContextGraph.removeEdgesTargeting
        rw [← h.resolveExisting, ← h.edges]
        rfl, h.mem, h.cells⟩

end Writes

end SeamlessWorkflow
