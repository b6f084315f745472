import SeamlessWorkflow.Proofs.RootBuilders

/-!
# The root inputs after an operation

What the operations of a turn do to the root inputs of the cells, one lemma for each operation that
writes one.
-/

namespace SeamlessWorkflow

open Program Relation

/-- Is a bound source written? -/
def WriteValue.isEndpoint : WriteValue → Bool
  | .endpoint _ => true
  | .checksum _ => false

section Operations

variable {env : Substrate} {start : Ctx}

/-- No edge ends at the node or at a part of it. -/
def ContextGraph.Untargeted (g : ContextGraph) (path : NodePath) : Prop :=
  ∀ edge ∈ g.edges, (g.resolveExisting edge.target).map Prod.fst ≠ some path

theorem inspects_validateWrite (path : NodePath) (localPath : Path) (detach : Bool) :
    Inspects (validateWrite path localPath detach) fun _ ctx =>
      ∀ edge ∈ ctx.graph.edges, ∀ l, ctx.graph.resolveExisting edge.target = some (path, l) →
        controls detach localPath l = false := by
  refine Inspects.get_bind fun ctx => (inspects_refuseIf _ _ _).conseq fun _ ctx' hc heq => ?_
  subst heq
  intro edge he l hr
  obtain ⟨entry, hentry, hl⟩ := (ContextGraph.exists_incomingFor ctx'.graph path l).mpr ⟨edge, he, hr⟩
  have := hc
  rw [List.any_eq_true] at this
  by_contra hcontrols
  refine this ⟨entry, hentry, ?_⟩
  rw [hl]
  simpa using hcontrols

theorem untargeted_of_validate {g : ContextGraph} {path : NodePath}
    (h : ∀ edge ∈ g.edges, ∀ l, g.resolveExisting edge.target = some (path, l) →
      controls false [] l = false) : g.Untargeted path := by
  intro edge he hr
  cases ht : g.resolveExisting edge.target with
  | none => rw [ht] at hr; cases hr
  | some r =>
    obtain ⟨n, l⟩ := r
    rw [ht] at hr
    obtain rfl := Option.some.inj hr
    have := h edge he l ht
    simp [controls] at this

/-- A change at a path that is no cell adds no root input. -/
theorem RootSet.fewer_of_none {path : NodePath} {f : CellFields → CellFields} {edges : List Edge}
    {ctx : Ctx} (h : RootSet start path f edges ctx) (hnone : start.cell? path = none)
    (hsub : edges.Sublist start.graph.edges) : FewerRoots start ctx := by
  refine .of_cells (by rw [h.edges]; exact hsub) fun q => ?_
  rw [h.cells]
  by_cases hq : q = path
  · rw [if_pos hq, hq, hnone]
    rfl
  · rw [if_neg hq]

/-- A stored value, or none, has been written to the root of a cell. -/
theorem RootSet.stores {path : NodePath} {producer : Option ConstantProducer} {edges : List Edge}
    {ctx : Ctx} (h : RootSet start path (CellFields.storing producer) edges ctx) (ho : start.OneRoot)
    (hx : start.expressionAt path = none) (hsub : edges.Sublist start.graph.edges)
    (hfree : ∀ edge ∈ edges, (start.graph.resolveExisting edge.target).map Prod.fst ≠ some path) :
    ctx.OneRoot ∧ ((start.cell? path).isSome = true → ctx.Takes path (.stored producer)) := by
  cases hcell : start.cell? path with
  | none => exact ⟨(h.fewer_of_none hcell hsub).oneRoot ho, fun hs => absurd hs (by simp)⟩
  | some fields =>
    rw [Ctx.expressionAt_of_cell? hcell] at hx
    obtain ⟨hone, htakes⟩ := h.written ho hsub hfree hcell (.stored producer)
      (RootInput.stored_edges _) (by rw [RootInput.stored_rootExpression]; exact hx)
      (RootInput.stored_rootProducer _).symm
    exact ⟨hone, fun _ => htakes⟩

/-! ## Cells -/

theorem setCellRoot_written (path : NodePath) (checksum : Option Checksum) (celltype : Celltype)
    (clear : Bool) (ho : start.OneRoot) (hx : start.expressionAt path = none)
    (hfree : clear = false → start.graph.Untargeted path) :
    Triple (· = start) (setCellRoot env path checksum celltype clear)
      (fun _ ctx => ctx.OneRoot ∧ ((start.cell? path).isSome = true →
        ctx.Takes path (.stored (writtenProducer env checksum celltype)))) Ctx.OneRoot := by
  refine (setCellRoot_result path checksum celltype clear).conseq (fun _ h => h)
    (fun _ ctx hset => ?_) fun ctx hf => hf.oneRoot ho
  refine hset.stores ho hx (cleared_sublist _ _ _) fun edge he => ?_
  unfold ContextGraph.cleared at he
  cases clear with
  | true => exact free_removeEdges (by simpa using he)
  | false => exact hfree rfl edge (by simpa using he)

/-- When a new edge into a cell as a whole leaves no other root input. -/
structure Ctx.WiresRoot (ctx : Ctx) (path : NodePath) : Prop where
  expression : ctx.expressionAt path = none
  producer : ctx.producerAt path = none ∨ ctx.Derivable

instance (ctx : Ctx) (path : NodePath) : Decidable (ctx.WiresRoot path) :=
  decidable_of_iff (ctx.expressionAt path = none ∧ (ctx.producerAt path = none ∨ ctx.Derivable))
    ⟨fun h => ⟨h.1, h.2⟩, fun h => ⟨h.expression, h.producer⟩⟩

/-- The edge of a bound source has been written to a cell as a whole. -/
def Ctx.UsesEdge (env : Substrate) (ctx : Ctx) (path : NodePath) (ep : BoundEndpoint) : Prop :=
  ∃ edge, ep.recipe.Describes ep.place ⟨path, []⟩ edge ∧ ctx.Uses env path (.edge edge)

theorem Ctx.UsesEdge.same {a b : Ctx} {path : NodePath} {ep : BoundEndpoint}
    (h : a.UsesEdge env path ep) (hs : SameRoots a b) : b.UsesEdge env path ep := by
  obtain ⟨edge, hd, hu⟩ := h
  exact ⟨edge, hd, (hs.takes hu.takes).uses env⟩

/-- What a write of a bound source or of a checksum to a cell as a whole leaves. -/
def Ctx.UsesWritten (env : Substrate) (ctx : Ctx) (path : NodePath) : WriteValue → Prop
  | .endpoint ep => ctx.UsesEdge env path ep
  | .checksum c => ∃ celltype, ctx.Uses env path (.stored (writtenProducer env c celltype))

theorem Ctx.UsesWritten.same {a b : Ctx} {path : NodePath} {value : WriteValue}
    (h : a.UsesWritten env path value) (hs : SameRoots a b) : b.UsesWritten env path value := by
  cases value with
  | endpoint ep => exact Ctx.UsesEdge.same h hs
  | checksum c =>
    obtain ⟨celltype, hu⟩ := h
    exact ⟨celltype, (hs.takes hu.takes).uses env⟩

/-- When a write through a cell handle leaves one root input. -/
def Ctx.WritesRoot (ctx : Ctx) (path : NodePath) (localPath : Path) : WriteValue → Prop
  | .endpoint _ => if localPath = [] then ctx.WiresRoot path else ctx.Unrooted (path ++ localPath)
  | .checksum _ => ctx.expressionAt path = none

instance (ctx : Ctx) (path : NodePath) (localPath : Path) (value : WriteValue) :
    Decidable (ctx.WritesRoot path localPath value) := by
  unfold Ctx.WritesRoot
  split <;> infer_instance

theorem deriveAll_inputs {Q : Ctx → Prop} (hQ : ∀ a b, SameRoots a b → Q a → Q b) :
    Keeps Q (deriveAll env) :=
  deriveAll_keeps (fun a b hd h => hQ a b (.of_durable hd) h) env

theorem oneRoot_same {a b : Ctx} (h : SameRoots a b) (ho : a.OneRoot) : b.OneRoot := h.fewer.oneRoot ho

/-- A root write, and the derivation after it. -/
theorem written_deriveAll {path : NodePath} {value : WriteValue} :
    Triple (fun ctx => ctx.OneRoot ∧ ((start.cell? path).isSome = true →
        ctx.UsesWritten env path value)) (deriveAll env)
      (fun _ ctx => ctx.OneRoot ∧ ((start.cell? path).isSome = true →
        ctx.UsesWritten env path value)) Ctx.OneRoot := by
  refine (deriveAll_inputs (Q := fun ctx => ctx.OneRoot ∧
    ((start.cell? path).isSome = true → ctx.UsesWritten env path value)) ?_).conseq
      (fun _ h => h) (fun _ _ h => h) fun _ h => h.1
  exact fun a b hs h => ⟨oneRoot_same hs h.1, fun hcell => (h.2 hcell).same hs⟩

/-- An edge into a node that is no cell is no root input. -/
theorem addEndpointEdge_whole {path : NodePath} (ep : BoundEndpoint) (detach : Bool)
    (ho : start.OneRoot) (hw : start.WiresRoot path) :
    Triple (· = start) (addEndpointEdge env ep (cellEndpoint path []) detach)
      (fun _ ctx => ctx.OneRoot ∧ ((start.cell? path).isSome = true → ctx.UsesEdge env path ep))
      Ctx.OneRoot := by
  cases hcell : start.cell? path with
  | some fields =>
    refine (addEndpointEdge_root ep detach ho (by rw [hcell]; rfl) hw.expression hw.producer).conseq
      (fun _ h => h) (fun _ ctx ⟨hone, _, edge, hd, ht⟩ => ?_) fun _ h => h
    exact ⟨hone, fun _ => ⟨edge, hd, ht.uses env⟩⟩
  | none =>
    have hproducer : start.producerAt path = none := by
      unfold Ctx.producerAt
      rw [hcell]
      rfl
    refine (addEndpointEdge_free ep (cellEndpoint path []) detach ho ?_).conseq (fun _ h => h)
      (fun _ ctx hc => ⟨hc.1, fun hs => absurd hs (by simp)⟩) fun _ h => h
    rw [show (cellEndpoint path []).place.flat = path from List.append_nil path]
    exact ⟨hw.expression, hproducer⟩

theorem cellOperation_result (path : NodePath) (localPath : Path) (value : WriteValue) (detach : Bool)
    (inputCelltype : Option Celltype) (ho : start.OneRoot)
    (hw : start.WritesRoot path localPath value) :
    Triple (· = start) (cellOperation env path localPath value detach inputCelltype)
      (fun _ ctx => ctx.OneRoot ∧ (localPath = [] → (start.cell? path).isSome = true →
        ctx.UsesWritten env path value)) Ctx.OneRoot := by
  refine Triple.inspect (inspects_nodeAt path) (fun _ h => h ▸ ho) fun node => ?_
  cases value with
  | endpoint ep =>
    by_cases hl : localPath = []
    · subst hl
      have hw : start.WiresRoot path := by simpa [Ctx.WritesRoot] using hw
      refine Triple.bind (R := fun _ ctx => ctx.OneRoot ∧ ((start.cell? path).isSome = true →
        ctx.UsesWritten env path (.endpoint ep))) ?_ fun _ => ?_
      · exact (addEndpointEdge_whole ep detach ho hw).conseq (fun _ h => h.1) (fun _ _ h => h)
          fun _ h => h
      · exact written_deriveAll.conseq (fun _ h => h) (fun _ ctx h => ⟨h.1, fun _ => h.2⟩) fun _ h => h
    · have hw : start.Unrooted (path ++ localPath) := by simpa [Ctx.WritesRoot, hl] using hw
      refine Triple.bind ((addEndpointEdge_free ep (cellEndpoint path localPath) detach ho
        hw).conseq (fun _ h => h.1) (fun _ _ h => h) fun _ h => h) fun _ => ?_
      refine (oneRoot_of_addsNone (fun s => addsNone_deriveAll)).conseq (fun _ h => h.1)
        (fun _ ctx h => ⟨h, fun h' => absurd h' hl⟩) fun _ h => h
  | checksum c =>
    refine Triple.inspect (inspects_validateWrite path localPath detach) (fun _ h => h.1 ▸ ho)
      fun _ => ?_
    refine Triple.inspect (inspects_refuseIf _ _ _) (fun _ h => h.1.1 ▸ ho) fun _ => ?_
    refine Triple.assume (c := localPath = []) (fun _ h => by simpa using h.2) fun hl => ?_
    subst hl
    refine Triple.bind (R := fun _ ctx => ctx = start ∧ (detach = false → start.graph.Untargeted path))
      ((keeps_labelCelltype path inputCelltype).conseq (fun ctx h => ?_) (fun _ _ h => h)
        fun _ h => h.1 ▸ ho) fun celltype => ?_
    · obtain ⟨⟨⟨rfl, -⟩, hvalid⟩, -⟩ := h
      refine ⟨rfl, fun hd => untargeted_of_validate ?_⟩
      rw [hd] at hvalid
      exact hvalid
    · refine Triple.assume (fun _ h => h.2) fun hfree => ?_
      refine Triple.bind (R := fun _ ctx => ctx.OneRoot ∧ ((start.cell? path).isSome = true →
        ctx.UsesWritten env path (.checksum c))) ?_ fun _ => ?_
      · refine (setCellRoot_written path c celltype detach ho hw hfree).conseq (fun _ h => h.1)
          (fun _ ctx h => ⟨h.1, fun hcell => ⟨celltype, (h.2 hcell).uses env⟩⟩) fun _ h => h
      · exact written_deriveAll.conseq (fun _ h => h) (fun _ ctx h => ⟨h.1, fun _ => h.2⟩) fun _ h => h

/-- A value written under an edited sub-path: no edge may feed the cell as a whole. -/
theorem RootSet.oneRoot_of_rootless {path : NodePath} {producer : Option ConstantProducer} {ctx : Ctx}
    (h : RootSet start path (CellFields.storing producer) start.graph.edges ctx) (ho : start.OneRoot)
    (hx : start.expressionAt path = none)
    (hfree : ∀ edge ∈ start.graph.edges,
      start.graph.resolveExisting edge.target ≠ some (path, [])) : ctx.OneRoot := by
  cases hcell : start.cell? path with
  | none => exact (h.fewer_of_none hcell (.refl _)).oneRoot ho
  | some fields =>
    refine h.oneRoot ho (.refl _) (fun fields' hf => Or.inl ?_) fun edge he heq => ?_
    · show fields'.rootExpression = none
      rw [← Ctx.expressionAt_of_cell? hf]
      exact hx
    · have hmem : path ∈ start.graph.nodes := Ctx.mem_of_cell? (by rw [hcell]; rfl)
      refine hfree edge he ?_
      rw [heq]
      exact resolveExisting_self hmem (heq ▸ ho.named edge he)

/-- The edges at the written path are dropped by a write that detaches, and are not there else. -/
theorem commitEdges_result {path : NodePath} {localPath : Path} {detach : Bool}
    {producer : Option ConstantProducer} {E : Ctx → Prop}
    (hvalid : ∀ edge ∈ start.graph.edges, ∀ l,
      start.graph.resolveExisting edge.target = some (path, l) → controls detach localPath l = false)
    (ho : start.OneRoot) (hx : start.expressionAt path = none) :
    Triple (RootSet start path (CellFields.storing producer) start.graph.edges)
      (onlyIf detach (removeEdgesTargeting path localPath))
      (fun _ ctx => ctx.OneRoot ∧ (localPath = [] → (start.cell? path).isSome = true →
        ctx.Takes path (.stored producer))) E := by
  by_cases hl : localPath = []
  · subst hl
    refine removeEdges_cleared.conseq (fun _ h => h) (fun _ ctx h => ?_) fun _ h => h
    have hfree : ∀ edge ∈ start.graph.cleared path detach,
        (start.graph.resolveExisting edge.target).map Prod.fst ≠ some path := by
      intro edge he
      unfold ContextGraph.cleared at he
      by_cases hd : detach = true
      · rw [if_pos hd] at he
        exact free_removeEdges he
      · rw [if_neg hd] at he
        have hd' : detach = false := by simpa using hd
        rw [hd'] at hvalid
        exact untargeted_of_validate hvalid edge he
    obtain ⟨hone, htakes⟩ := h.stores ho hx (cleared_sublist _ _ _) hfree
    exact ⟨hone, fun _ => htakes⟩
  · have hrootless : ∀ edge ∈ start.graph.edges,
        start.graph.resolveExisting edge.target ≠ some (path, []) := by
      intro edge he hr
      have := hvalid edge he [] hr
      simp [controls, List.length_pos_iff.mpr hl] at this
    refine Triple.ite (fun _ => Triple.modify fun ctx h => ⟨?_, fun h' => absurd h' hl⟩) fun _ =>
      Triple.pure fun ctx h => ⟨h.oneRoot_of_rootless ho hx hrootless, fun h' => absurd h' hl⟩
    exact (FewerRoots.modifyGraph (f := fun g => g.removeEdgesTargeting path localPath true)
      List.filter_sublist rfl).oneRoot (h.oneRoot_of_rootless ho hx hrootless)

theorem commitUpdate_result (path : NodePath) (localPath : Path) (checksum : Checksum)
    (base : Option Checksum) (revision : Nat) (detach : Bool) (ho : start.OneRoot)
    (hx : start.expressionAt path = none) :
    Triple (· = start) (commitUpdate env path localPath checksum base revision detach)
      (fun _ ctx => ctx.OneRoot ∧ (localPath = [] → (start.cell? path).isSome = true →
        (start.node? path).map Node.currentChecksum = some base → start.revision path = revision →
        ctx.UsesWritten env path (.checksum (some checksum)))) Ctx.OneRoot := by
  refine Triple.inspect (inspects_validateWrite path localPath detach) (fun _ h => h ▸ ho) fun _ => ?_
  refine Triple.inspect (inspects_nodeAt path) (fun _ h => h.1 ▸ ho) fun node => ?_
  refine Triple.get_bind fun ctx => ?_
  refine Triple.assume (fun _ h => h.1 ▸ h.2) fun hctx => ?_
  obtain ⟨⟨rfl, hvalid⟩, hnode⟩ := hctx
  refine Triple.ite (fun hstale => Triple.pure fun ctx' h => ?_) fun hfresh => ?_
  · rw [h.1]
    refine ⟨ho, fun _ _ hbase hrevision => absurd hstale ?_⟩
    rw [hnode] at hbase
    rw [not_or, not_not, not_not]
    exact ⟨Option.some.inj hbase, hrevision⟩
  refine Triple.inspect (inspects_cellAt path) (fun _ h => h.1 ▸ ho) fun fields => ?_
  generalize fields.config.celltype = celltype
  refine Triple.bind (R := fun _ => RootSet ctx path (CellFields.storing
    (writtenProducer env (some checksum) celltype)) ctx.graph.edges) ?_ fun _ => ?_
  · have hedges : ctx.graph.cleared path (false = true) = ctx.graph.edges := if_neg (by simp)
    have hset : Triple (· = ctx) (setCellRoot env path (some checksum) celltype false) _ _ :=
      setCellRoot_result path (some checksum) celltype false
    rw [hedges] at hset
    exact hset.conseq (fun _ h => h.1.1) (fun _ _ h => h) fun _ h => h.oneRoot ho
  refine Triple.bind (R := fun _ ctx' => ctx'.OneRoot ∧ (localPath = [] →
    (ctx.cell? path).isSome = true → ctx'.UsesWritten env path (.checksum (some checksum)))) ?_
      fun _ => ?_
  · refine (commitEdges_result hvalid ho hx).conseq (fun _ h => h) (fun _ ctx' h => ?_) fun _ h => h
    exact ⟨h.1, fun hl hcell => ⟨celltype, (h.2 hl hcell).uses env⟩⟩
  · refine Triple.bind ((deriveAll_inputs (Q := fun ctx' => ctx'.OneRoot ∧
      (localPath = [] → (ctx.cell? path).isSome = true →
        ctx'.UsesWritten env path (.checksum (some checksum)))) ?_).conseq (fun _ h => h)
          (fun _ _ h => h) fun _ h => h.1) fun _ => Triple.pure fun ctx' h =>
            ⟨h.1, fun hl hcell _ _ => h.2 hl hcell⟩
    exact fun a b hs h => ⟨oneRoot_same hs h.1, fun hl hcell => (h.2 hl hcell).same hs⟩

/-- The value of a cell is deleted. -/
theorem cellDeletePath_result (path : NodePath) (localPath : Path) (ho : start.OneRoot)
    (hx : start.expressionAt path = none) :
    Triple (· = start) (cellDeletePath env path localPath)
      (fun _ ctx => ctx.OneRoot ∧ ((start.cell? path).isSome = true →
        ctx.UsesWritten env path (.checksum none))) Ctx.OneRoot := by
  refine Triple.inspect (inspects_refuseIf _ _ _) (fun _ h => h ▸ ho) fun _ => ?_
  refine Triple.bind (R := fun _ => RootSet start path (CellFields.storing none) start.graph.edges)
    ((replaceRootProducer_result path none).conseq (fun _ h => h.1) (fun _ _ h => h)
      fun _ h => h.oneRoot ho) fun _ => ?_
  refine Triple.bind (R := fun _ ctx => ctx.OneRoot ∧ ((start.cell? path).isSome = true →
    ctx.UsesWritten env path (.checksum none))) (Triple.modify fun ctx h => ?_) fun _ =>
      written_deriveAll
  have hcleared : RootSet start path (CellFields.storing none)
      (start.graph.removeEdgesTargeting path [] true).edges
      (ctx.modifyGraph fun g => g.removeEdgesTargeting path [] true) := by
    refine ⟨?_, h.mem, h.cells⟩
    unfold ContextGraph.removeEdgesTargeting
    rw [← h.resolveExisting, ← h.edges]
    rfl
  obtain ⟨hone, htakes⟩ := hcleared.stores ho hx List.filter_sublist fun edge he => free_removeEdges he
  exact ⟨hone, fun hcell => ⟨.mixed, (htakes hcell).uses env⟩⟩

/-! ## Wiring the pins and the code of a transformer -/

/-- One root input in every cell, and none at certain paths. -/
structure Ctx.Spares (ctx : Ctx) (paths : NodePath → Prop) : Prop where
  oneRoot : ctx.OneRoot
  unrooted : ∀ path, paths path → ctx.Unrooted path

theorem FewerRoots.spares {a b : Ctx} (h : FewerRoots a b) {paths : NodePath → Prop}
    (hs : a.Spares paths) : b.Spares paths :=
  ⟨h.oneRoot hs.oneRoot, fun path hp => h.unrooted (hs.unrooted path hp)⟩

theorem spares_of_addsNone {α : Type} {program : M α} {paths : NodePath → Prop}
    (h : ∀ start, AddsNone start program) : Keeps (Ctx.Spares · paths) program := by
  intro ctx hs
  have := h ctx ctx (.refl ctx)
  cases hr : program ctx with
  | ok a ctx' => rw [hr] at this; exact this.spares hs
  | error e ctx' => rw [hr] at this; exact this.spares hs

/-- A program that ends in a state of `I`, or raises in one with a single root input in every cell. -/
abbrev KeepsSpare (paths : NodePath → Prop) {α : Type} (program : M α) : Prop :=
  Triple (Ctx.Spares · paths) program (fun _ => (Ctx.Spares · paths)) Ctx.OneRoot

theorem KeepsSpare.of_keeps {α : Type} {program : M α} {paths : NodePath → Prop}
    (h : Keeps (Ctx.Spares · paths) program) : KeepsSpare paths program :=
  h.conseq (fun _ h => h) (fun _ _ h => h) fun _ h => h.oneRoot

theorem KeepsSpare.of_addsNone {α : Type} {program : M α} {paths : NodePath → Prop}
    (h : ∀ start, AddsNone start program) : KeepsSpare paths program := KeepsSpare.of_keeps (spares_of_addsNone h)

theorem spares_addEndpointEdge {paths : NodePath → Prop} (source target : BoundEndpoint)
    (detach : Bool) (ht : paths target.place.flat) :
    KeepsSpare paths (addEndpointEdge env source target detach) := by
  refine triple_each fun ctx hs => ?_
  refine (addEndpointEdge_free source target detach hs.oneRoot (hs.unrooted _ ht)).conseq (fun _ h => h)
    (fun _ ctx' ⟨hone, next, hj, hf⟩ => ?_) fun _ h => h
  exact ⟨hone, fun path hp => hf.unrooted (hj.unrooted (hs.unrooted path hp))⟩

theorem spares_setTransformerPin {paths : NodePath → Prop} (path : NodePath) (pin : String)
    (value : WriteValue) (inputCelltype : Option Celltype) (detach : Bool)
    (hp : ∀ ep, value = .endpoint ep → paths (path ++ [.key pin])) :
    KeepsSpare paths (setTransformerPin env path pin value inputCelltype detach) := by
  refine Triple.bind (KeepsSpare.of_keeps (keeps_refuseIf _ _ _)) fun _ => ?_
  refine Triple.bind (KeepsSpare.of_keeps (keeps_nodeAt path)) fun _ => ?_
  refine Triple.bind (KeepsSpare.of_keeps (keeps_onlyIf (keeps_checkAuthority _ _))) fun _ => ?_
  refine Triple.bind (KeepsSpare.of_keeps (keeps_transformerAt path)) fun fields => ?_
  refine Triple.bind (KeepsSpare.of_keeps (keeps_refuseWith _)) fun _ => ?_
  refine Triple.bind (KeepsSpare.of_addsNone fun s => addsNone_declarePin path pin) fun _ => ?_
  cases value with
  | checksum c => exact KeepsSpare.of_addsNone fun s => addsNone_writePin path pin c inputCelltype
  | endpoint ep =>
    refine Triple.bind (spares_addEndpointEdge ep (transformerEndpoint path pin) true ?_) fun _ =>
      KeepsSpare.of_addsNone fun s => addsNone_deriveAll
    exact hp ep rfl

theorem spares_setTransformerCode {paths : NodePath → Prop} (path : NodePath) (code : CodeValue)
    (hp : ∀ ep, code = .endpoint ep → paths (path ++ [.key "code"])) :
    KeepsSpare paths (setTransformerCode env path code) := by
  cases code with
  | config cfg => exact KeepsSpare.of_addsNone fun s => addsNone_setCode path cfg
  | endpoint ep =>
    refine Triple.bind (spares_addEndpointEdge ep (transformerEndpoint path "code") false (hp ep rfl))
      fun _ => ?_
    refine Triple.bind (KeepsSpare.of_addsNone fun s => addsNone_releaseCodeChecksum path) fun _ => ?_
    refine Triple.bind (KeepsSpare.of_keeps (keeps_transformerAt path)) fun _ => ?_
    exact Triple.bind (KeepsSpare.of_addsNone fun s => addsNone_setTransformerConfig path _) fun _ =>
      KeepsSpare.of_addsNone fun s => addsNone_deriveAll

/-- The paths at which the arguments of a transformer builder are wired. -/
def wiredArgs (path : NodePath) (transformer : PreparedTransformer) (p : NodePath) : Prop :=
  ∃ arg ∈ transformer.args, (argPin arg).2.isEndpoint = true ∧ p = path ++ [.key (argPin arg).1]

theorem createTransformerFromBuilder_result (path : NodePath) (transformer : PreparedTransformer)
    (hs : start.Spares (wiredArgs path transformer)) :
    Triple (· = start) (createTransformerFromBuilder env path transformer) (fun _ => Ctx.OneRoot)
      Ctx.OneRoot := by
  refine Triple.tryCatch (F := Ctx.OneRoot) ?_ fun e => Triple.bind
    (oneRoot_of_addsNone fun s => addsNone_deleteSubtree path) fun _ => Triple.throw fun _ h => h
  have hbody : KeepsSpare (wiredArgs path transformer) (do
      createTransformer path transformer.config
      transformer.args.forM fun arg => setTransformerPin env path (argPin arg).1 (argPin arg).2
        (transformer.inputCelltypes.lookup (argPin arg).1) true) := by
    refine Triple.bind (KeepsSpare.of_addsNone fun s => addsNone_createTransformer path _) fun _ => ?_
    refine Triple.forM fun arg harg => spares_setTransformerPin path _ _ _ _ fun ep hep => ?_
    exact ⟨arg, harg, by rw [hep]; rfl, rfl⟩
  exact hbody.conseq (fun _ h => h ▸ hs) (fun _ _ h => h.oneRoot) fun _ h => h

theorem replaceTransformerFromBuilder_result (path : NodePath) (transformer : PreparedTransformer)
    (hs : start.Spares (wiredArgs path transformer)) :
    Triple (· = start) (replaceTransformerFromBuilder env path transformer) (fun _ => Ctx.OneRoot)
      Ctx.OneRoot := by
  have hgraph : ∀ (f : Ctx → Ctx), (∀ ctx, (f ctx).graph = ctx.graph) →
      KeepsSpare (wiredArgs path transformer) (modify f : M Unit) := fun f hf =>
    .of_addsNone fun s => addsNone_modify fun ctx => .of_graph (hf ctx)
  suffices h : KeepsSpare (wiredArgs path transformer)
      (replaceTransformerFromBuilder env path transformer) from
    h.conseq (fun _ h => h ▸ hs) (fun _ _ h => h.oneRoot) fun _ h => h
  refine Triple.bind (KeepsSpare.of_keeps (keeps_transformerAt path)) fun fields => ?_
  dsimp only
  refine Triple.bind (KeepsSpare.of_keeps (Keeps.forM fun arg _ => keeps_checkReplacementArg _ _ _))
    fun _ => ?_
  refine Triple.bind (hgraph _ fun ctx => graph_increfAll _ ctx) fun _ => ?_
  unfold installReplacement
  split
  · exact Triple.bind (hgraph _ fun ctx => graph_decrefAll _ ctx) fun _ =>
      KeepsSpare.of_keeps (keeps_raise _ _)
  refine Triple.bind (hgraph _ fun ctx => graph_increfAll _ ctx) fun _ => ?_
  refine Triple.bind (KeepsSpare.of_keeps Keeps.get) fun ctx => ?_
  refine Triple.bind (KeepsSpare.of_addsNone fun s => Keeps.bind (addsNone_mapTransformer path _)
    fun _ => addsNone_modify fun _ => .of_graph rfl) fun _ => ?_
  refine Triple.tryCatch (F := Ctx.OneRoot) ?_ fun e => Triple.bind (R := fun _ => Ctx.OneRoot)
    (Triple.modify fun ctx h => ?_) fun _ => Triple.throw fun _ h => h
  · refine Triple.bind (hgraph _ fun ctx => graph_decrefAll _ ctx) fun _ => ?_
    refine Triple.bind (KeepsSpare.of_keeps (Keeps.forM fun pin _ =>
      spares_of_addsNone fun s => addsNone_removeEdges path _)) fun _ => ?_
    refine Triple.bind (KeepsSpare.of_addsNone fun s => addsNone_removeEdges path _) fun _ => ?_
    refine Triple.bind (KeepsSpare.of_addsNone fun s => addsNone_bumpRevision path) fun _ => ?_
    refine Triple.bind (Triple.forM fun arg harg => ?_) fun _ =>
      KeepsSpare.of_addsNone fun s => addsNone_deriveAll
    obtain ⟨arg', harg', rfl⟩ := List.mem_map.mp harg
    split
    · rename_i ep hep
      refine spares_setTransformerPin path _ _ _ _ fun ep' hep' => ?_
      exact ⟨arg', harg', by rw [hep]; rfl, rfl⟩
    · exact Triple.pure fun _ h => h
  · exact (FewerRoots.of_graph (a := ctx) (b := ctx.poison) rfl).oneRoot h

/-! ## Assignments -/

/-- The node of a transformer that becomes a cell. -/
theorem fewerRoots_toCell (path : NodePath) (celltype : Celltype) (ctx : Ctx) :
    FewerRoots ctx (ctx.modifyGraph fun g =>
      (g.replaceEdgesTo path).updateNode path (Node.toCell celltype)) := by
  refine FewerRoots.trans (b := ctx.modifyGraph fun g => g.replaceEdgesTo path)
    (.modifyGraph List.filter_sublist rfl) ?_
  exact fewerRoots_updateNode path (fun node => ⟨Or.inl rfl, Or.inl rfl⟩)
    (ctx.modifyGraph fun g => g.replaceEdgesTo path)

theorem replaceTransformerBySource_result (path : NodePath) (ep : BoundEndpoint) (ho : start.OneRoot)
    (hcell : start.cell? path = none) :
    Triple (· = start) (replaceTransformerBySource env path ep)
      (fun _ ctx => ctx.OneRoot ∧ ctx.UsesEdge env path ep) Ctx.OneRoot := by
  have hfree : start.Unrooted path := by
    refine ⟨?_, ?_⟩
    · unfold Ctx.expressionAt
      rw [hcell]
      rfl
    · unfold Ctx.producerAt
      rw [hcell]
      rfl
  have hroot : ∀ ctx, FewerRoots start ctx → ctx.OneRoot := fun ctx h => h.oneRoot ho
  refine Triple.inspect (inspects_refuseIf _ _ _) (fun _ h => h ▸ ho) fun _ => ?_
  refine Triple.bind (R := fun _ => FewerRoots start) ((keeps_endpointCelltype ep).conseq
    (fun _ h => h.1 ▸ .refl _) (fun _ _ h => h) hroot) fun celltype => ?_
  refine Triple.bind (R := fun _ => FewerRoots start) (Keeps.get.conseq (fun _ h => h)
    (fun _ _ h => h) hroot) fun ctx => ?_
  refine Triple.bind (R := fun _ => FewerRoots start) ((keeps_refuseIf _ _ _).conseq (fun _ h => h)
    (fun _ _ h => h) hroot) fun _ => ?_
  refine Triple.bind (R := fun _ => FewerRoots start) ((keeps_checkDeepLink _ _ _).conseq
    (fun _ h => h) (fun _ _ h => h) hroot) fun _ => ?_
  refine Triple.bind (R := fun _ => FewerRoots start) (Triple.modify fun ctx h =>
    h.trans (.of_durable (Ctx.durable_replaceCurrentChecksum env path none ctx))) fun _ => ?_
  refine Triple.inspect (inspects_nodeAt path) hroot fun node => ?_
  refine Triple.bind (R := fun _ ctx => FewerRoots start ctx ∧ path ∈ ctx.graph.nodes)
    (Triple.modify fun ctx h => ?_) fun _ => ?_
  · refine ⟨h.1.trans (.of_graph (graph_decrefAll _ ctx)), ?_⟩
    rw [graph_decrefAll, ← AList.lookup_isSome]
    show (ctx.node? path).isSome = true
    rw [h.2]
    rfl
  refine Triple.bind (R := fun _ ctx => FewerRoots start ctx ∧ path ∈ ctx.graph.nodes)
    (Triple.modify fun ctx h => ?_) fun _ => ?_
  · refine ⟨h.1.trans (fewerRoots_releaseCode path ctx), ?_⟩
    rw [show (ctx.releaseCode path).graph = ctx.graph from graph_decrefAll _ ctx]
    exact h.2
  refine Triple.bind (R := fun _ ctx => FewerRoots start ctx ∧ path ∈ ctx.graph.nodes)
    (Triple.modify fun ctx h => ?_) fun _ => ?_
  · refine ⟨h.1.trans (fewerRoots_dropRuns path ctx), ?_⟩
    have hsame : SameRoots ctx (ctx.dropRuns path) := .of_durable
      (Ctx.durable_cancelRuns (ctx.runtime.recordsAt path)
        { ctx with runtime := ctx.runtime.dropNode path })
    exact (hsame.mem path).mpr h.2
  refine Triple.bind (R := fun _ ctx => FewerRoots start ctx ∧ (ctx.cell? path).isSome = true)
    (Triple.modify fun ctx h => ?_) fun _ => ?_
  · refine ⟨h.1.trans (fewerRoots_toCell path celltype ctx), ?_⟩
    have hnode : ∃ node, ctx.graph.nodes.lookup path = some node := by
      rw [← AList.lookup_isSome] at h
      exact Option.isSome_iff_exists.mp h.2
    obtain ⟨node', hnode⟩ := hnode
    unfold Ctx.cell? Ctx.node?
    show ((((ctx.graph.replaceEdgesTo path).updateNode path (Node.toCell celltype)).nodes.lookup
      path).bind _).isSome = true
    rw [ContextGraph.lookup_updateNode, if_pos rfl]
    show (((ctx.graph.nodes.lookup path).map _).bind _).isSome = true
    rw [hnode]
    rfl
  refine Triple.bind (R := fun _ ctx => FewerRoots start ctx ∧ (ctx.cell? path).isSome = true)
    (Triple.modify fun ctx h => ?_) fun _ => ?_
  · refine ⟨h.1.trans (fewerRoots_syncTables ctx), ?_⟩
    rw [cell?_of_durable ((Ctx.durable_syncSupersededRefholds _).trans
      (Ctx.durable_syncModuleRefholds ctx))]
    exact h.2
  refine triple_each fun ctx h => ?_
  have hbare := h.1.unrooted hfree
  refine (addEndpointEdge_root ep false (hroot ctx h.1) h.2 hbare.expression
    (Or.inl hbare.producer)).conseq (fun _ h => h) (fun _ ctx' ⟨hone, _, edge, hd, ht⟩ => ?_)
      fun _ h => h
  exact ⟨hone, edge, hd, ht.uses env⟩

end Operations

end SeamlessWorkflow
