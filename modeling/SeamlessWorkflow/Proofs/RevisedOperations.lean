import SeamlessWorkflow.Proofs.Revisions

/-!
# Operations and revisions

Every operation keeps what is watched. Where an operation changes a configuration, either the
configuration is not fenced or the operation gives the node a new revision before it does anything that
can raise.
-/

namespace SeamlessWorkflow

open Program

namespace Watch.Lawful

variable {env : Substrate} {w : Watch} (h : w.Lawful env) (start : Ctx)

section Wiring

include h

theorem modifiesAside {f : Ctx → Ctx} (hf : ∀ ctx, Aside ctx (f ctx)) :
    Keeps (Kept w start) (modify f : M Unit) := Keeps.modify fun ctx hc => hc.aside h (hf ctx)

omit h in
theorem modifiesEdit {f : Ctx → Ctx} (hf : ∀ ctx, Edits w ctx (f ctx)) :
    Keeps (Kept w start) (modify f : M Unit) := Keeps.modify fun ctx hc => hc.edit (hf ctx)

omit h in
theorem modifyNode (path : NodePath) {f : Node → Node}
    (hf : w.fenced path → ∀ node, (f node).config = node.config) :
    Keeps (Kept w start) (modifyNode path f) :=
  modifiesEdit start fun ctx => edits_updateNode path ctx hf

omit h in
theorem mapCell (path : NodePath) {f : CellFields → CellFields}
    (hf : w.fenced path → ∀ fields, (f fields).config = fields.config) :
    Keeps (Kept w start) (SeamlessWorkflow.modifyNode path (Node.mapCell f)) :=
  modifyNode start path fun hfenced => config_mapCell (hf hfenced)

omit h in
theorem mapTransformer (path : NodePath) {f : TransformerFields → TransformerFields}
    (hf : w.fenced path → ∀ fields, (f fields).config = fields.config) :
    Keeps (Kept w start) (SeamlessWorkflow.modifyNode path (Node.mapTransformer f)) :=
  modifyNode start path fun hfenced => config_mapTransformer (hf hfenced)

omit h in
/-- A derivation that raises leaves an unsettled Context with the configurations it found. -/
theorem kept_poison {ctx ctx' : Ctx} (hunsettled : ctx'.settled = false)
    (hdurable : ctx'.durable = ctx.durable) (hc : Kept w start ctx) : Kept w start ctx' :=
  hc.edit (.of_config hunsettled (fun p _ => Ctx.config?_of_durable hdurable p)
    fun p _ => Ctx.revision_of_durable hdurable p)

/-- Derivation writes no configuration and no revision. -/
theorem deriveAll : Keeps (Kept w start) (deriveAll env) := by
  refine deriveAll_keeps_of (fun ctx sorted hs _ _ hc => ?_) (fun ctx sorted raised hraise hc => ?_)
    fun ctx hc => kept_poison start rfl (by simp) hc
  · have hdurable : (ctx.beginDerivation.deriveGraph env sorted).durable = ctx.durable := by
      rw [Ctx.durable_deriveGraph, Ctx.durable_beginDerivation]
    refine hc.trans ⟨fun _ => h.derive hs, fun p _ hp => ?_,
      fun p _ _ => (Ctx.revision_of_durable hdurable p).symm.le,
      fun p _ _ _ => Ctx.config?_of_durable hdurable p⟩
    rwa [Ctx.config?_of_durable hdurable]
  · refine kept_poison start rfl ?_ hc
    rw [Ctx.durable_poison, Ctx.durable_unsettle, Ctx.durable_graphRaises hraise,
      Ctx.durable_beginDerivation]

omit h in
theorem removeEdgesTargeting (path : NodePath) (localPath : Path) :
    Keeps (Kept w start) (removeEdgesTargeting path localPath) :=
  modifiesEdit start fun _ => .modifyGraph fun _ _ => rfl

omit h in
theorem appendEdge (edge : Edge) : Keeps (Kept w start) (appendEdge env edge) := by
  refine Triple.get_bind fun ctx => ?_
  cases hr : ctx.graph.registerEdgeSymbols env edge with
  | none => exact Triple.throw fun _ hc => hc.2
  | some r =>
    refine Triple.modify fun ctx' hc => ?_
    obtain ⟨rfl, hc⟩ := hc
    refine hc.edit (.modifyGraph fun p _ => ?_)
    show (AList.lookup p r.2.nodes).map Node.config = _
    rw [(ContextGraph.registerEdgeSymbols_spec hr).1.nodes]

theorem addEdge (source target : Place) (recipe : EdgeRecipe) (detach : Bool) :
    Keeps (Kept w start) (addEdge env source target recipe detach) := by
  refine Keeps.bind (keeps_resolve _) fun s => Keeps.bind (keeps_resolve _) fun t => ?_
  refine Keeps.bind (inspects_checkEdge s.1 t.1 t.2 detach).keeps fun _ => ?_
  refine Keeps.bind (keeps_nodeAt _) fun node => ?_
  refine Keeps.bind (removeEdgesTargeting start t.1 t.2) fun _ => ?_
  exact Keeps.bind (appendEdge start _) fun _ => h.deriveAll start

theorem retainProducer (checksum : Checksum) (celltype : Celltype) :
    Keeps (Kept w start) (retainProducer env checksum celltype) :=
  Keeps.bind (h.modifiesAside start fun _ => .of_eq rfl rfl rfl rfl (fun _ => le_rfl) rfl) fun _ =>
    Keeps.pure

theorem releaseProducer (producer : Option ConstantProducer) :
    Keeps (Kept w start) (releaseProducer producer) := h.modifiesAside start fun ctx =>
  aside_decrefAll _ ctx

theorem replaceRootProducer (path : NodePath) (producer : Option ConstantProducer) :
    Keeps (Kept w start) (replaceRootProducer path producer) := by
  refine Keeps.bind (keeps_nodeAt path) fun _ => ?_
  exact Keeps.bind (mapCell start path fun _ _ => rfl) fun _ => h.releaseProducer start _

theorem dropPinProducer (path : NodePath) (pin : String) :
    Keeps (Kept w start) (dropPinProducer path pin) := by
  refine Keeps.bind (keeps_nodeAt path) fun _ => ?_
  exact Keeps.bind (mapTransformer start path fun _ _ => rfl) fun _ => h.releaseProducer start _

theorem dropReplaced (target : BoundEndpoint) : Keeps (Kept w start) (dropReplaced target) := by
  refine Keeps.bind (keeps_nodeAt _) fun node => ?_
  refine Keeps.ite (Keeps.ite (h.replaceRootProducer start _ _) Keeps.pure) ?_
  split
  · exact h.dropPinProducer start _ _
  · exact Keeps.pure

theorem addEndpointEdge (source target : BoundEndpoint) (detach : Bool) :
    Keeps (Kept w start) (addEndpointEdge env source target detach) := by
  refine Keeps.bind (keeps_refuseIf _ _ _) fun _ => Keeps.bind (keeps_refuseIf _ _ _) fun _ => ?_
  refine Keeps.bind (keeps_checkDeepLink _ _ _) fun _ => ?_
  refine Keeps.bind (keeps_checkTarget _ _ _) fun _ => ?_
  exact Keeps.bind (h.addEdge start _ _ _ _) fun _ => h.dropReplaced start _

end Wiring

/-! ## Cells -/

section Cells

include h

theorem bumpRevision (path : NodePath) : Keeps (Kept w start) (bumpRevision path) :=
  h.modifiesAside start (aside_bumpRevision path)

omit h in
theorem clearSenseErrors (path : NodePath) :
    Keeps (Kept w start) (modify (·.clearSenseErrors path) : M Unit) :=
  modifiesEdit start fun _ => .of_config rfl (fun _ _ => rfl) fun _ _ => rfl

theorem storeRoot (path : NodePath) (checksum : Option Checksum) (celltype : Celltype) :
    Keeps (Kept w start) (storeRoot env path checksum celltype) := by
  cases checksum with
  | none => exact h.replaceRootProducer start path none
  | some c =>
    refine Keeps.bind (keeps_cellAt path) fun _ => ?_
    exact Keeps.bind (h.retainProducer start c celltype) fun _ => h.replaceRootProducer start path _

theorem setCellRoot (path : NodePath) (checksum : Option Checksum) (celltype : Celltype)
    (clearEdges : Bool) : Keeps (Kept w start) (setCellRoot env path checksum celltype clearEdges) := by
  refine Keeps.bind Keeps.get fun ctx => Keeps.bind (keeps_refuseIf _ _ _) fun _ => ?_
  refine Keeps.bind (clearSenseErrors start path) fun _ => ?_
  refine Keeps.bind (h.storeRoot start path checksum celltype) fun _ => ?_
  refine Keeps.bind (h.bumpRevision start path) fun _ => ?_
  exact keeps_onlyIf (removeEdgesTargeting start path [])

theorem cellOperation (path : NodePath) (localPath : Path) (value : WriteValue) (detach : Bool)
    (inputCelltype : Option Celltype) :
    Keeps (Kept w start) (cellOperation env path localPath value detach inputCelltype) := by
  refine Keeps.bind (keeps_nodeAt path) fun _ => ?_
  cases value with
  | endpoint ep => exact Keeps.bind (h.addEndpointEdge start _ _ _) fun _ => h.deriveAll start
  | checksum c =>
    refine Keeps.bind (keeps_validateWrite _ _ _) fun _ => ?_
    refine Keeps.bind (keeps_refuseIf _ _ _) fun _ => ?_
    refine Keeps.bind (keeps_labelCelltype _ _) fun _ => ?_
    exact Keeps.bind (h.setCellRoot start _ _ _ _) fun _ => h.deriveAll start

theorem commitUpdate (path : NodePath) (localPath : Path) (checksum : Checksum)
    (base : Option Checksum) (revision : Nat) (detach : Bool) :
    Keeps (Kept w start) (commitUpdate env path localPath checksum base revision detach) := by
  refine Keeps.bind (keeps_validateWrite _ _ _) fun _ => Keeps.bind (keeps_nodeAt path) fun _ => ?_
  refine Keeps.bind Keeps.get fun _ => Keeps.ite Keeps.pure ?_
  refine Keeps.bind (keeps_cellAt path) fun _ => Keeps.bind (h.setCellRoot start _ _ _ _) fun _ => ?_
  refine Keeps.bind (keeps_onlyIf (removeEdgesTargeting start _ _)) fun _ => ?_
  exact Keeps.bind (h.deriveAll start) fun _ => Keeps.pure

theorem cellDeletePath (path : NodePath) (localPath : Path) :
    Keeps (Kept w start) (cellDeletePath env path localPath) := by
  refine Keeps.bind (keeps_refuseIf _ _ _) fun _ => ?_
  refine Keeps.bind (h.replaceRootProducer start path none) fun _ => ?_
  exact Keeps.bind (removeEdgesTargeting start path []) fun _ => h.deriveAll start

end Cells

/-! ## Transformers -/

section Transformers

include h

theorem retainCodeChecksum (path : NodePath) (checksum : Option Checksum) :
    Keeps (Kept w start) (retainCodeChecksum path checksum) := by
  cases checksum with
  | none => exact Keeps.pure
  | some c => exact h.modifiesAside start fun _ => .of_eq rfl rfl rfl rfl (fun _ => le_rfl) rfl

theorem replaceCodeChecksum (path : NodePath) (checksum : Option Checksum) :
    Keeps (Kept w start) (replaceCodeChecksum path checksum) := by
  refine h.modifiesAside start fun ctx => ?_
  cases checksum with
  | none =>
    exact Aside.trans (b := { ctx with codeRefholds := ctx.codeRefholds.erase path })
      (.of_eq rfl rfl rfl rfl (fun _ => le_rfl) rfl) (aside_decrefAll _ _)
  | some c =>
    exact Aside.trans (b := { ctx.incref c with codeRefholds := ctx.codeRefholds.insert path c })
      (.of_eq rfl rfl rfl rfl (fun _ => le_rfl) rfl) (aside_decrefAll _ _)

theorem releaseCodeChecksum (path : NodePath) : Keeps (Kept w start) (releaseCodeChecksum path) :=
  h.modifiesAside start (aside_releaseCode path)

theorem clearTransformerPin (path : NodePath) (pin : String) :
    Keeps (Kept w start) (clearTransformerPin env path pin) := by
  refine Keeps.bind (h.dropPinProducer start path pin) fun _ => ?_
  refine Keeps.bind (removeEdgesTargeting start path _) fun _ => ?_
  exact Keeps.bind (mapTransformer start path fun _ _ => rfl) fun _ => h.deriveAll start

theorem setPinProducer (path : NodePath) (pin : String) (producer : ConstantProducer) :
    Keeps (Kept w start) (setPinProducer path pin producer) := by
  refine Keeps.bind (keeps_nodeAt path) fun _ => ?_
  exact Keeps.bind (mapTransformer start path fun _ _ => rfl) fun _ => h.releaseProducer start _

theorem writePin (path : NodePath) (pin : String) (value : WriteValue)
    (inputCelltype : Option Celltype) :
    Keeps (Kept w start) (writePin env path pin value inputCelltype) := by
  match value with
  | .endpoint ep => exact Keeps.bind (h.addEndpointEdge start _ _ _) fun _ => h.deriveAll start
  | .checksum none => exact h.clearTransformerPin start path pin
  | .checksum (some c) =>
    refine Keeps.bind (keeps_transformerAt path) fun _ => ?_
    refine Keeps.bind (h.retainProducer start _ _) fun producer => ?_
    refine Keeps.bind (h.setPinProducer start path pin producer) fun _ => ?_
    exact Keeps.bind (removeEdgesTargeting start path _) fun _ => h.deriveAll start

/-- A pin is declared without a new revision. -/
theorem setTransformerPin (path : NodePath) (hfree : ¬ w.fenced path) (pin : String)
    (value : WriteValue) (inputCelltype : Option Celltype) (detach : Bool) :
    Keeps (Kept w start) (setTransformerPin env path pin value inputCelltype detach) := by
  refine Keeps.bind (keeps_refuseIf _ _ _) fun _ => Keeps.bind (keeps_nodeAt path) fun _ => ?_
  refine Keeps.bind (keeps_onlyIf (keeps_checkAuthority _ _)) fun _ => ?_
  refine Keeps.bind (keeps_transformerAt path) fun _ => ?_
  refine Keeps.bind (keeps_refuseWith _) fun _ => ?_
  refine Keeps.bind (mapTransformer start path fun hfenced => absurd hfenced hfree) fun _ => ?_
  exact h.writePin start path pin value inputCelltype

/-- A pin is taken back without a new revision. -/
theorem deleteTransformerPin (path : NodePath) (hfree : ¬ w.fenced path) (pin : String) :
    Keeps (Kept w start) (deleteTransformerPin env path pin) := by
  refine Keeps.bind (keeps_transformerAt path) fun _ => Keeps.bind (keeps_refuseIf _ _ _) fun _ => ?_
  exact Keeps.bind (mapTransformer start path fun hfenced => absurd hfenced hfree) fun _ =>
    h.clearTransformerPin start path pin

theorem recordPinReadError (path : NodePath) (pin : String) (readError : PinReadError) :
    Keeps (Kept w start) (recordPinReadError env path pin readError) := by
  refine Keeps.bind Keeps.get fun ctx => Keeps.bind (keeps_pinSnapshot path pin) fun _ => ?_
  exact keeps_onlyIf (Keeps.bind (mapTransformer start path fun _ _ => rfl) fun _ => h.deriveAll start)

end Transformers

end Watch.Lawful

end SeamlessWorkflow
