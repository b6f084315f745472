import SeamlessWorkflow.Proofs.Upheld

/-!
# Operations keep what is upheld

Every operation of a turn keeps an invariant that survives the changes listed in `Upheld`.
-/

namespace SeamlessWorkflow

open Program

namespace Upheld

variable {env : Substrate} {delivers : Ctx → NodePath → Nat → (RunRecord → RunRecord) → Prop}
  {assigns : Ctx → NodePath → AssignValue → Prop} {loads : ContextGraph → Prop} {mid full : Ctx → Prop}

section Operations

variable (h : Upheld env delivers assigns loads (fun _ => True) mid full)

include h

theorem modifies {f : Ctx → Ctx} (hf : ∀ ctx, Steady ctx (f ctx)) :
    Keeps full (modify f : M Unit) := Keeps.modify fun ctx hc => h.steady (hf ctx) hc

theorem modifyNode (path : NodePath) {f : Node → Node}
    (hf : ∀ node, (f node).isCell = node.isCell ∧ (f node).record = node.record) :
    Keeps full (modifyNode path f) :=
  h.modifies (steady_updateNode path hf)

theorem mapCell (path : NodePath) (f : CellFields → CellFields) :
    Keeps full (SeamlessWorkflow.modifyNode path (Node.mapCell f)) :=
  h.modifyNode path (steady_mapCell f)

theorem mapTransformer (path : NodePath) (f : TransformerFields → TransformerFields) :
    Keeps full (SeamlessWorkflow.modifyNode path (Node.mapTransformer f)) :=
  h.modifyNode path (steady_mapTransformer f)

theorem deriveAll : Keeps full (deriveAll env) :=
  deriveAll_keeps_of (fun _ _ hs _ _ hc => h.derive hs (fun _ _ => trivial) hc)
    (fun _ _ _ hraise hc => h.raised hraise (fun _ _ => trivial) hc)
    fun ctx hc => h.steady ((steady_beginDerivation ctx).trans (steady_poison _)) hc

/-! ## Wiring -/

theorem removeEdgesTargeting (path : NodePath) (localPath : Path) :
    Keeps full (removeEdgesTargeting path localPath) :=
  h.modifies fun _ => .modifyGraph rfl List.filter_sublist rfl

theorem appendEdge {edge : Edge} (he : edge.sourceChain = []) : Keeps full (appendEdge env edge) := by
  refine Triple.get_bind fun ctx => ?_
  cases hr : ctx.graph.registerEdgeSymbols env edge with
  | none => exact Triple.throw fun _ hc => hc.2
  | some r =>
    refine Triple.modify fun ctx' hc => ?_
    obtain ⟨rfl, hc⟩ := hc
    exact h.append he hr hc

theorem addEdge (source target : Place) (recipe : EdgeRecipe) (detach : Bool) :
    Keeps full (addEdge env source target recipe detach) := by
  refine Keeps.bind (keeps_resolve _) fun s => Keeps.bind (keeps_resolve _) fun t => ?_
  refine Keeps.bind (inspects_checkEdge s.1 t.1 t.2 detach).keeps fun _ => ?_
  refine Keeps.bind (keeps_nodeAt _) fun node => ?_
  refine Keeps.bind (h.removeEdgesTargeting t.1 t.2) fun _ => ?_
  exact Keeps.bind (h.appendEdge rfl) fun _ => h.deriveAll

theorem retainProducer (checksum : Checksum) (celltype : Celltype) :
    Keeps full (retainProducer env checksum celltype) :=
  Keeps.bind (h.modifies fun _ => .of_eq rfl rfl rfl rfl) fun _ => Keeps.pure

theorem releaseProducer (producer : Option ConstantProducer) :
    Keeps full (releaseProducer producer) := h.modifies fun ctx => steady_decrefAll _ ctx

theorem replaceRootProducer (path : NodePath) (producer : Option ConstantProducer) :
    Keeps full (replaceRootProducer path producer) := by
  refine Keeps.bind (keeps_nodeAt path) fun _ => ?_
  exact Keeps.bind (h.mapCell path _) fun _ => h.releaseProducer _

theorem dropPinProducer (path : NodePath) (pin : String) : Keeps full (dropPinProducer path pin) := by
  refine Keeps.bind (keeps_nodeAt path) fun _ => ?_
  exact Keeps.bind (h.mapTransformer path _) fun _ => h.releaseProducer _

theorem dropReplaced (target : BoundEndpoint) : Keeps full (dropReplaced target) := by
  refine Keeps.bind (keeps_nodeAt _) fun node => ?_
  refine Keeps.ite (Keeps.ite (h.replaceRootProducer _ _) Keeps.pure) ?_
  split
  · exact h.dropPinProducer _ _
  · exact Keeps.pure

theorem addEndpointEdge (source target : BoundEndpoint) (detach : Bool) :
    Keeps full (addEndpointEdge env source target detach) := by
  refine Keeps.bind (keeps_refuseIf _ _ _) fun _ => Keeps.bind (keeps_refuseIf _ _ _) fun _ => ?_
  refine Keeps.bind (keeps_checkDeepLink _ _ _) fun _ => ?_
  refine Keeps.bind (keeps_checkTarget _ _ _) fun _ => ?_
  exact Keeps.bind (h.addEdge _ _ _ _) fun _ => h.dropReplaced _

/-! ## Cells -/

theorem bumpRevision (path : NodePath) : Keeps full (bumpRevision path) :=
  h.modifies fun _ => .of_eq rfl rfl rfl rfl

theorem clearSenseErrors (path : NodePath) :
    Keeps full (modify (·.clearSenseErrors path) : M Unit) :=
  h.modifies fun _ => .of_eq rfl rfl rfl rfl

theorem storeRoot (path : NodePath) (checksum : Option Checksum) (celltype : Celltype) :
    Keeps full (storeRoot env path checksum celltype) := by
  cases checksum with
  | none => exact h.replaceRootProducer path none
  | some c =>
    refine Keeps.bind (keeps_cellAt path) fun _ => ?_
    exact Keeps.bind (h.retainProducer c celltype) fun _ => h.replaceRootProducer path _

theorem setCellRoot (path : NodePath) (checksum : Option Checksum) (celltype : Celltype)
    (clearEdges : Bool) : Keeps full (setCellRoot env path checksum celltype clearEdges) := by
  refine Keeps.bind Keeps.get fun ctx => Keeps.bind (keeps_refuseIf _ _ _) fun _ => ?_
  refine Keeps.bind (h.clearSenseErrors path) fun _ => ?_
  refine Keeps.bind (h.storeRoot path checksum celltype) fun _ => ?_
  refine Keeps.bind (h.bumpRevision path) fun _ => ?_
  exact keeps_onlyIf (h.removeEdgesTargeting path [])

theorem cellOperation (path : NodePath) (localPath : Path) (value : WriteValue) (detach : Bool)
    (inputCelltype : Option Celltype) :
    Keeps full (cellOperation env path localPath value detach inputCelltype) := by
  refine Keeps.bind (keeps_nodeAt path) fun _ => ?_
  cases value with
  | endpoint ep => exact Keeps.bind (h.addEndpointEdge _ _ _) fun _ => h.deriveAll
  | checksum c =>
    refine Keeps.bind (keeps_validateWrite _ _ _) fun _ => ?_
    refine Keeps.bind (keeps_refuseIf _ _ _) fun _ => ?_
    refine Keeps.bind (keeps_labelCelltype _ _) fun _ => ?_
    exact Keeps.bind (h.setCellRoot _ _ _ _) fun _ => h.deriveAll

theorem commitUpdate (path : NodePath) (localPath : Path) (checksum : Checksum)
    (base : Option Checksum) (revision : Nat) (detach : Bool) :
    Keeps full (commitUpdate env path localPath checksum base revision detach) := by
  refine Keeps.bind (keeps_validateWrite _ _ _) fun _ => Keeps.bind (keeps_nodeAt path) fun _ => ?_
  refine Keeps.bind Keeps.get fun _ => Keeps.ite Keeps.pure ?_
  refine Keeps.bind (keeps_cellAt path) fun _ => Keeps.bind (h.setCellRoot _ _ _ _) fun _ => ?_
  refine Keeps.bind (keeps_onlyIf (h.removeEdgesTargeting _ _)) fun _ => ?_
  exact Keeps.bind h.deriveAll fun _ => Keeps.pure

theorem cellDeletePath (path : NodePath) (localPath : Path) :
    Keeps full (cellDeletePath env path localPath) := by
  refine Keeps.bind (keeps_refuseIf _ _ _) fun _ => ?_
  refine Keeps.bind (h.replaceRootProducer path none) fun _ => ?_
  exact Keeps.bind (h.removeEdgesTargeting path []) fun _ => h.deriveAll

/-! ## Transformers -/

theorem setTransformerConfig (path : NodePath) (f : TransformerConfig → TransformerConfig) :
    Keeps full (setTransformerConfig path f) := h.mapTransformer path _

theorem retainCodeChecksum (path : NodePath) (checksum : Option Checksum) :
    Keeps full (retainCodeChecksum path checksum) := by
  cases checksum with
  | none => exact Keeps.pure
  | some c => exact h.modifies fun _ => .of_eq rfl rfl rfl rfl

theorem replaceCodeChecksum (path : NodePath) (checksum : Option Checksum) :
    Keeps full (replaceCodeChecksum path checksum) := by
  refine h.modifies fun ctx => ?_
  cases checksum with
  | none =>
    exact Steady.trans (b := { ctx with codeRefholds := ctx.codeRefholds.erase path })
      (.of_eq rfl rfl rfl rfl) (steady_decrefAll _ _)
  | some c =>
    exact Steady.trans (b := { ctx.incref c with codeRefholds := ctx.codeRefholds.insert path c })
      (.of_eq rfl rfl rfl rfl) (steady_decrefAll _ _)

theorem releaseCodeChecksum (path : NodePath) : Keeps full (releaseCodeChecksum path) :=
  h.modifies (steady_releaseCode path)

theorem dropPins (path : NodePath) (pins : List String) : Keeps full (dropPins path pins) :=
  Keeps.forM fun pin _ => Keeps.bind (h.dropPinProducer path pin) fun _ =>
    h.removeEdgesTargeting path [.key pin]

theorem setTransformerCode (path : NodePath) (code : CodeValue) :
    Keeps full (setTransformerCode env path code) := by
  cases code with
  | endpoint ep =>
    refine Keeps.bind (h.addEndpointEdge _ _ _) fun _ => ?_
    refine Keeps.bind (h.releaseCodeChecksum path) fun _ => ?_
    refine Keeps.bind (keeps_transformerAt path) fun _ => ?_
    exact Keeps.bind (h.setTransformerConfig path _) fun _ => h.deriveAll
  | config cfg =>
    refine Keeps.bind (keeps_transformerAt path) fun fields => ?_
    refine Keeps.bind (h.setTransformerConfig path _) fun _ => ?_
    refine Keeps.bind (h.dropPins path _) fun _ => ?_
    refine Keeps.bind (h.removeEdgesTargeting path _) fun _ => ?_
    refine Keeps.bind (h.bumpRevision path) fun _ => ?_
    exact Keeps.bind (h.replaceCodeChecksum path _) fun _ => h.deriveAll

theorem clearTransformerPin (path : NodePath) (pin : String) :
    Keeps full (clearTransformerPin env path pin) := by
  refine Keeps.bind (h.dropPinProducer path pin) fun _ => ?_
  refine Keeps.bind (h.removeEdgesTargeting path _) fun _ => ?_
  exact Keeps.bind (h.mapTransformer path _) fun _ => h.deriveAll

theorem setPinProducer (path : NodePath) (pin : String) (producer : ConstantProducer) :
    Keeps full (setPinProducer path pin producer) := by
  refine Keeps.bind (keeps_nodeAt path) fun _ => ?_
  exact Keeps.bind (h.mapTransformer path _) fun _ => h.releaseProducer _

theorem writePin (path : NodePath) (pin : String) (value : WriteValue)
    (inputCelltype : Option Celltype) : Keeps full (writePin env path pin value inputCelltype) := by
  match value with
  | .endpoint ep => exact Keeps.bind (h.addEndpointEdge _ _ _) fun _ => h.deriveAll
  | .checksum none => exact h.clearTransformerPin path pin
  | .checksum (some c) =>
    refine Keeps.bind (keeps_transformerAt path) fun _ => ?_
    refine Keeps.bind (h.retainProducer _ _) fun producer => ?_
    refine Keeps.bind (h.setPinProducer path pin producer) fun _ => ?_
    exact Keeps.bind (h.removeEdgesTargeting path _) fun _ => h.deriveAll

theorem setTransformerPin (path : NodePath) (pin : String) (value : WriteValue)
    (inputCelltype : Option Celltype) (detach : Bool) :
    Keeps full (setTransformerPin env path pin value inputCelltype detach) := by
  refine Keeps.bind (keeps_refuseIf _ _ _) fun _ => Keeps.bind (keeps_nodeAt path) fun _ => ?_
  refine Keeps.bind (keeps_onlyIf (keeps_checkAuthority _ _)) fun _ => ?_
  refine Keeps.bind (keeps_transformerAt path) fun _ => ?_
  refine Keeps.bind (keeps_refuseWith _) fun _ => ?_
  exact Keeps.bind (h.mapTransformer path _) fun _ => h.writePin path pin value inputCelltype

theorem deleteTransformerPin (path : NodePath) (pin : String) :
    Keeps full (deleteTransformerPin env path pin) := by
  refine Keeps.bind (keeps_transformerAt path) fun _ => Keeps.bind (keeps_refuseIf _ _ _) fun _ => ?_
  exact Keeps.bind (h.setTransformerConfig path _) fun _ => h.clearTransformerPin path pin

theorem recordPinReadError (path : NodePath) (pin : String) (readError : PinReadError) :
    Keeps full (recordPinReadError env path pin readError) := by
  refine Keeps.bind Keeps.get fun ctx => Keeps.bind (keeps_pinSnapshot path pin) fun _ => ?_
  exact keeps_onlyIf (Keeps.bind (h.mapTransformer path _) fun _ => h.deriveAll)

/-! ## Configuration -/

theorem publishCell (path : NodePath) (old new : CellConfig) :
    Keeps full (publishCell path old new) := by
  refine Keeps.bind Keeps.get fun ctx => Keeps.bind (keeps_refuseIf _ _ _) fun _ => ?_
  exact Keeps.bind (keeps_refuseIf _ _ _) fun _ => h.mapCell path _

theorem publishTransformer (path : NodePath) (old new : TransformerConfig) :
    Keeps full (publishTransformer path old new) := by
  refine Keeps.bind Keeps.get fun ctx => Keeps.bind (keeps_refuseIf _ _ _) fun _ => ?_
  refine Keeps.bind (keeps_onlyIf ?_) fun _ => h.setTransformerConfig path _
  exact Keeps.bind (h.dropPins path _) fun _ => h.mapTransformer path _

theorem publishBody (path : NodePath) (body : NodeBody) (config : NodeConfig) :
    Keeps full (publishBody path body config) := by
  unfold SeamlessWorkflow.publishBody
  split
  · exact h.publishCell path _ _
  · exact h.publishTransformer path _ _
  · exact Keeps.bind (h.modifies steady_poison) fun _ => keeps_raise _ _
  · exact keeps_raise _ _

theorem publishConfig (path : NodePath) (revision : Nat) (config : NodeConfig) :
    Keeps full (publishConfig env path revision config) := by
  refine Keeps.bind Keeps.get fun ctx => Keeps.ite Keeps.pure ?_
  refine Keeps.bind (keeps_nodeAt path) fun node => ?_
  refine Keeps.bind (h.publishBody path _ config) fun _ => ?_
  refine Keeps.bind (h.modifies fun ctx => .of_eq rfl rfl rfl rfl) fun _ => ?_
  exact Keeps.bind h.deriveAll fun _ => Keeps.pure

/-! ## Deletion -/

theorem deleteNode {ctx : Ctx} (hc : mid ctx) (path : NodePath) : mid (ctx.deleteNode path) := by
  have hdetached : mid (ctx.detachAll path) := h.steady_mid (steady_detachAll path ctx) hc
  unfold Ctx.deleteNode
  dsimp only
  cases (ctx.detachAll path).node? path with
  | none => exact hdetached
  | some node => exact h.remove path node hdetached

theorem deleteNodes (paths : List NodePath) {ctx : Ctx} (hc : mid ctx) :
    mid (paths.foldl Ctx.deleteNode ctx) := by
  induction paths generalizing ctx with
  | nil => exact hc
  | cons path paths ih => exact ih (h.deleteNode hc path)

theorem deleteSubtree (path : NodePath) : Keeps full (deleteSubtree env path) := by
  refine Keeps.bind (keeps_sortedDescendants path) fun descendants => ?_
  refine Triple.bind (R := fun _ => mid)
    (Triple.modify fun ctx hc => h.deleteNodes descendants (h.weaken hc)) fun _ => ?_
  refine Triple.bind (R := fun _ => mid) (Triple.modify fun ctx hc => ?_) fun _ => ?_
  · exact h.steady_mid (.modifyGraph rfl List.filter_sublist rfl) hc
  · refine Triple.bind (R := fun _ => full) (Triple.modify fun ctx hc => ?_) fun _ => h.deriveAll
    exact h.sync (h.steady_mid (steady_syncModuleRefholds ctx) hc)

theorem delete (path : NodePath) : Keeps full (delete env path) := by
  refine Keeps.bind (keeps_refuseIf _ _ _) fun _ => Keeps.bind Keeps.get fun ctx => ?_
  refine Keeps.ite (h.deleteSubtree path) ?_
  unfold deleteInside
  split
  · exact Keeps.pure
  · refine Keeps.ite (h.cellDeletePath _ _) ?_
    split
    · exact h.deleteTransformerPin _ _
    · exact Keeps.pure

/-! ## Builders -/

theorem createCell (path : NodePath) (config : CellConfig) : Keeps full (createCell path config) := by
  refine Triple.get_bind fun ctx => ?_
  refine Triple.inspect (inspects_refuseIf _ _ _) (fun _ hc => hc.2) fun _ => ?_
  refine Triple.modify fun ctx' hc => ?_
  obtain ⟨⟨rfl, hfull⟩, hnew⟩ := hc
  exact h.create path _ hnew hfull

theorem installCell (path : NodePath) (config : CellConfig) (producer : Option ConstantProducer)
    (expression : Option RootExpression) (bump : Bool) :
    Keeps full (installCell path config producer expression bump) := by
  refine Keeps.bind (h.mapCell path _) fun _ => ?_
  refine Keeps.bind (h.replaceRootProducer path producer) fun _ => ?_
  exact Keeps.bind (keeps_onlyIf (h.bumpRevision path)) fun _ => h.removeEdgesTargeting path []

theorem detachForBuilder (path : NodePath) (celltype : Celltype) :
    Keeps full (detachForBuilder path celltype) := by
  refine Keeps.bind (keeps_nodeAt path) fun node => Keeps.bind Keeps.get fun ctx => ?_
  refine keeps_onlyIf (Keeps.bind (keeps_refuseIf _ _ _) fun _ => ?_)
  refine Keeps.bind (h.modifies (steady_detachAll path)) fun _ => h.modifyNode path ?_
  exact fun _ => ⟨rfl, rfl⟩

theorem beginReplacement (path : NodePath) (recipe : CellRecipe) :
    Keeps full (beginReplacement path recipe) :=
  Keeps.bind (h.detachForBuilder path recipe.celltype) fun _ => h.mapCell path _

theorem createExpressionRoot (root : Checksum) (celltype : Celltype) :
    Keeps full (createExpressionRoot env root celltype) := by
  refine Keeps.bind Keeps.get fun ctx => Keeps.bind (h.createCell _ _) fun _ => ?_
  refine Keeps.bind (h.retainProducer _ _) fun _ => ?_
  exact Keeps.bind (h.replaceRootProducer _ _) fun _ => Keeps.pure

theorem bindInput (path : NodePath) (recipe : CellRecipe) (input : InputRef) :
    Keeps full (bindInput env path recipe input) := by
  cases input with
  | unset => exact h.installCell _ _ _ _ _
  | checksum c => exact Keeps.bind (h.retainProducer _ _) fun _ => h.installCell _ _ _ _ _
  | endpoint ep => exact Keeps.bind (h.addEndpointEdge _ _ _) fun _ => h.mapCell _ _
  | rootExpression expression => exact h.installCell _ _ _ _ _
  | expression first links root =>
    refine Keeps.bind (h.createExpressionRoot _ _) fun source => ?_
    exact Keeps.bind (h.installCell _ _ _ _ _) fun _ => h.addEdge _ _ _ _

theorem replaceCellFromBuilder (input : InputRef) (upstream : List CellRecipe) :
    ∀ path recipe, Keeps full (replaceCellFromBuilder env upstream path recipe input) := by
  induction upstream with
  | nil =>
    intro path recipe
    exact Keeps.bind (h.beginReplacement path recipe) fun _ => h.bindInput path recipe input
  | cons next rest ih =>
    intro path recipe
    refine Keeps.bind (h.beginReplacement path recipe) fun _ => Keeps.bind Keeps.get fun ctx => ?_
    refine Keeps.bind (h.createCell _ _) fun _ => ?_
    refine Keeps.bind (Keeps.tryCatch (ih _ next) fun e => ?_) fun _ => ?_
    · exact Keeps.bind (h.deleteSubtree _) fun _ => Keeps.throw
    · exact Keeps.bind (h.addEdge _ _ _ _) fun _ => h.mapCell _ _

theorem createCellFromBuilder (path : NodePath) (cell : PreparedCell) :
    Keeps full (createCellFromBuilder env path cell) := by
  refine Keeps.bind (h.createCell _ _) fun _ => ?_
  refine Keeps.tryCatch (h.replaceCellFromBuilder _ _ path _) fun e => ?_
  exact Keeps.bind (h.deleteSubtree path) fun _ => Keeps.throw

theorem createTransformer (path : NodePath) (config : TransformerConfig) :
    Triple (fun ctx => full ctx ∧ path ∉ ctx.graph.nodes) (createTransformer path config)
      (fun _ => full) full := by
  refine Triple.bind (R := fun _ => full) (Triple.modify fun ctx hc => ?_) fun _ =>
    h.retainCodeChecksum path _
  exact h.create path _ hc.2 hc.1

theorem createTransformerFromBuilder (path : NodePath) (transformer : PreparedTransformer) :
    Triple (fun ctx => full ctx ∧ path ∉ ctx.graph.nodes)
      (createTransformerFromBuilder env path transformer) (fun _ => full) full := by
  refine Triple.tryCatch (F := full) ?_ fun e =>
    Keeps.bind (h.deleteSubtree path) fun _ => Keeps.throw
  refine Triple.bind (h.createTransformer path _) fun _ => ?_
  exact Keeps.forM fun arg _ => h.setTransformerPin _ _ _ _ _

theorem finishReplacement (path : NodePath) (old : TransformerFields) (config : TransformerConfig)
    (args : List (String × WriteValue)) (released : List Checksum) :
    Keeps full (finishReplacement env path old config args released) := by
  refine Keeps.bind (h.modifies (steady_decrefAll released)) fun _ => ?_
  refine Keeps.bind (Keeps.forM fun pin _ => h.removeEdgesTargeting path _) fun _ => ?_
  refine Keeps.bind (h.removeEdgesTargeting path _) fun _ => ?_
  refine Keeps.bind (h.bumpRevision path) fun _ => Keeps.bind (Keeps.forM fun arg _ => ?_) fun _ =>
    h.deriveAll
  split
  · exact h.setTransformerPin _ _ _ _ _
  · exact Keeps.pure

theorem replaceTransformerFromBuilder (path : NodePath) (transformer : PreparedTransformer) :
    Keeps full (replaceTransformerFromBuilder env path transformer) := by
  refine Keeps.bind (keeps_transformerAt path) fun fields => ?_
  refine Keeps.bind (Keeps.forM fun arg _ => keeps_checkReplacementArg _ _ _) fun _ => ?_
  refine Keeps.bind (h.modifies (steady_increfAll _)) fun _ => ?_
  unfold installReplacement
  split
  · exact Keeps.bind (h.modifies (steady_decrefAll _)) fun _ => keeps_raise _ _
  · refine Keeps.bind (h.modifies (steady_increfAll _)) fun _ => Keeps.bind Keeps.get fun ctx => ?_
    refine Keeps.bind (Keeps.bind (h.mapTransformer path _) fun _ => ?_) fun _ => ?_
    · exact h.modifies fun _ => .of_eq rfl rfl rfl rfl
    · refine Keeps.tryCatch (h.finishReplacement _ _ _ _ _) fun e => ?_
      exact Keeps.bind (h.modifies steady_poison) fun _ => Keeps.throw

/-! ## Assignment -/

theorem replaceTransformerBySource (path : NodePath) (ep : BoundEndpoint) :
    Triple (fun ctx => full ctx ∧ assigns ctx path (.endpoint ep) ∧
        (ctx.node? path).map Node.isCell = some false)
      (replaceTransformerBySource env path ep) (fun _ => full) full := by
  refine Triple.bind_keeps (keeps_refuseIf _ _ _) (fun _ hc => hc.1) fun _ => ?_
  refine Triple.bind_keeps (keeps_endpointCelltype ep) (fun _ hc => hc.1) fun celltype => ?_
  refine Triple.bind_keeps Keeps.get (fun _ hc => hc.1) fun ctx => ?_
  refine Triple.bind_keeps (keeps_refuseIf _ _ _) (fun _ hc => hc.1) fun _ => ?_
  refine Triple.bind_keeps (keeps_checkDeepLink _ _ _) (fun _ hc => hc.1) fun _ => ?_
  refine Triple.bind (R := fun _ => full) (Triple.modify fun ctx hc => ?_) fun _ => ?_
  · obtain ⟨hfull, hassigns, hkind⟩ := hc
    exact h.release hassigns hkind hfull
  refine Keeps.bind (keeps_nodeAt path) fun node => ?_
  refine Keeps.bind (h.modifies (steady_decrefAll _)) fun _ => ?_
  refine Keeps.bind (h.releaseCodeChecksum path) fun _ => ?_
  -- between the dropped runs and the sync the invariant is not complete
  refine Triple.bind (R := fun _ ctx' => ∃ ctx, full ctx ∧ ctx' = ctx.dropRuns path)
    (Triple.modify fun ctx hc => ⟨ctx, hc, rfl⟩) fun _ => ?_
  refine Triple.bind (R := fun _ => mid) (Triple.modify fun ctx' hc => ?_) fun _ => ?_
  · obtain ⟨ctx, hfull, rfl⟩ := hc
    exact h.convert path celltype hfull
  · refine Triple.bind (R := fun _ => full) (Triple.modify fun ctx hc => ?_) fun _ =>
      h.addEndpointEdge _ _ _
    exact h.sync (h.steady_mid (steady_syncModuleRefholds ctx) hc)

theorem assignCell (path : NodePath) (value : AssignValue) :
    Keeps full (assignCell env path value) := by
  have invalid : Keeps full (do
      validateWrite path [] true
      modify (·.clearSenseErrors path)
      raise .typeError "not a checksum" : M Unit) := by
    refine Keeps.bind (keeps_validateWrite _ _ _) fun _ => ?_
    exact Keeps.bind (h.clearSenseErrors path) fun _ => keeps_raise _ _
  cases value with
  | endpoint ep => exact h.addEndpointEdge _ _ _
  | cell cell => exact h.replaceCellFromBuilder _ _ path _
  | checksum c => exact h.cellOperation path [] (.checksum (some c)) true none
  | context => exact invalid
  | subcontext sourcePrefix => exact invalid
  | transformer transformer => exact invalid
  | config cfg => exact invalid

theorem assignTransformer (path : NodePath) (value : AssignValue) :
    Triple (fun ctx => full ctx ∧ assigns ctx path value ∧
        (ctx.node? path).map Node.isCell = some false)
      (assignTransformer env path value) (fun _ => full) full := by
  have keeps : ∀ {program : M Unit}, Keeps full program → Triple (fun ctx => full ctx ∧
      assigns ctx path value ∧ (ctx.node? path).map Node.isCell = some false) program
        (fun _ => full) full :=
    fun hk => hk.conseq (fun _ hc => hc.1) (fun _ _ hc => hc) fun _ hc => hc
  cases value with
  | endpoint ep => exact h.replaceTransformerBySource path ep
  | transformer transformer => exact keeps (h.replaceTransformerFromBuilder path transformer)
  | config cfg => exact keeps (h.setTransformerCode path (.config cfg))
  | context => exact keeps (keeps_raise _ _)
  | subcontext sourcePrefix => exact keeps (keeps_raise _ _)
  | cell cell => exact keeps (keeps_raise _ _)
  | checksum c => exact keeps (keeps_raise _ _)

theorem addNamespace (path : NodePath) : Keeps full (modifyGraph fun g => g.addNamespace path) :=
  h.modifies fun _ => .modifyGraph rfl (.refl _) rfl

theorem copySubcontext (sourcePrefix targetPrefix : NodePath) :
    Triple (fun ctx => full ctx ∧ assigns ctx targetPrefix (.subcontext sourcePrefix) ∧
        targetPrefix ∉ ctx.graph.nodes)
      (copySubcontext env sourcePrefix targetPrefix) (fun _ => full) full := by
  -- the namespace and the copied nodes are one change
  refine Triple.bind (R := fun _ ctx' => ∃ ctx, full ctx ∧
    (assigns ctx targetPrefix (.subcontext sourcePrefix) ∧ targetPrefix ∉ ctx.graph.nodes) ∧
    ctx' = ctx.modifyGraph fun g => g.addNamespace targetPrefix)
    (Triple.modify fun ctx hc => ⟨ctx, hc.1, hc.2, rfl⟩) fun _ => ?_
  have hfull : ∀ ctx', (∃ ctx, full ctx ∧
      (assigns ctx targetPrefix (.subcontext sourcePrefix) ∧ targetPrefix ∉ ctx.graph.nodes) ∧
      ctx' = ctx.modifyGraph fun g => g.addNamespace targetPrefix) → full ctx' := by
    rintro ctx' ⟨ctx, hc, -, rfl⟩
    exact h.steady (.modifyGraph rfl (.refl _) rfl) hc
  refine Triple.inspect (inspects_sortedDescendants sourcePrefix) hfull fun descendants => ?_
  refine Triple.bind (R := fun _ => full) (Triple.modify fun ctx' hc => ?_) fun _ => ?_
  · obtain ⟨⟨ctx, hc, ⟨hassigns, hnew⟩, rfl⟩, hd⟩ := hc
    exact h.copyNodes hassigns hnew hd hc
  · refine Triple.get_bind fun ctx => ?_
    refine Triple.assume (fun ctx' hc => (hc.1 ▸ hc.2 : full ctx)) fun hfull => ?_
    have hedges : Keeps (fun next => full next ∧ next.derivations = ctx.derivations)
        ((ctx.graph.edgesBelow sourcePrefix).forM fun edge =>
          SeamlessWorkflow.copyEdge env sourcePrefix targetPrefix edge) :=
      Keeps.forM fun edge hedge => ((h.copyEdge sourcePrefix targetPrefix edge hfull
        (List.mem_of_mem_filter hedge)).and (derivations_copyEdge env sourcePrefix targetPrefix edge
          ctx.derivations)).conseq (fun _ hc => ⟨hc, hc.2⟩) (fun _ _ hc => hc) fun _ hc => hc
    refine Triple.bind (R := fun _ => full) (hedges.conseq (fun next hc => ⟨hc.2, ?_⟩)
      (fun _ _ hc => hc.1) fun _ hc => hc.1) fun _ => h.deriveAll
    rw [hc.1]

theorem assignNew (path : NodePath) (value : AssignValue) :
    Triple (fun ctx => full ctx ∧ path ∉ ctx.graph.nodes ∧ assigns ctx path value)
      (assignNew env path value) (fun _ => full) full := by
  cases value with
  | context => exact (h.addNamespace path).conseq (fun _ hc => hc.1) (fun _ _ hc => hc) fun _ hc => hc
  | subcontext sourcePrefix =>
    exact (h.copySubcontext sourcePrefix path).conseq (fun _ hc => ⟨hc.1, hc.2.2, hc.2.1⟩)
      (fun _ _ hc => hc) fun _ hc => hc
  | endpoint ep =>
    refine Triple.conseq (P := full) (Q := fun _ => full) (E := full) ?_ (fun _ hc => hc.1)
      (fun _ _ hc => hc) fun _ hc => hc
    refine Keeps.bind (keeps_refuseIf _ _ _) fun _ => ?_
    refine Keeps.bind (keeps_endpointCelltype ep) fun celltype => ?_
    refine Keeps.bind (keeps_checkDeepLink _ _ _) fun _ => ?_
    exact Keeps.bind (h.createCell _ _) fun _ => h.addEndpointEdge _ _ _
  | cell cell =>
    exact (h.createCellFromBuilder path cell).conseq (fun _ hc => hc.1) (fun _ _ hc => hc)
      fun _ hc => hc
  | transformer transformer =>
    exact (h.createTransformerFromBuilder path transformer).conseq (fun _ hc => ⟨hc.1, hc.2.1⟩)
      (fun _ _ hc => hc) fun _ hc => hc
  | config cfg =>
    exact (h.createTransformer path cfg).conseq (fun _ hc => ⟨hc.1, hc.2.1⟩) (fun _ _ hc => hc)
      fun _ hc => hc
  | checksum c =>
    refine Triple.conseq (P := full) (Q := fun _ => full) (E := full) ?_ (fun _ hc => hc.1)
      (fun _ _ hc => hc) fun _ hc => hc
    exact Keeps.bind (h.createCell _ _) fun _ => h.cellOperation _ _ _ _ _

theorem assign (path : NodePath) (value : AssignValue) :
    Triple (fun ctx => full ctx ∧ assigns ctx path value) (assign env path value) (fun _ => full)
      full := by
  refine Triple.inspect (inspects_refuseIf _ _ _) (fun _ hc => hc.1) fun _ => ?_
  refine Triple.inspect (inspects_refuseIf _ _ _) (fun _ hc => hc.1.1) fun _ => ?_
  refine Triple.bind (R := fun _ => full) ?_ fun _ => h.deriveAll
  refine Triple.get_bind fun ctx => ?_
  cases hnode : ctx.node? path with
  | some node =>
    refine Triple.ite (fun _ => ?_) fun hkind => ?_
    · exact (h.assignCell path value).conseq (fun _ hc => hc.2.1.1.1) (fun _ _ hc => hc) fun _ hc => hc
    · refine (h.assignTransformer path value).conseq (fun ctx' hc => ?_) (fun _ _ hc => hc)
        fun _ hc => hc
      obtain ⟨rfl, ⟨⟨hfull, hassigns⟩, -⟩, -⟩ := hc
      exact ⟨hfull, hassigns, by rw [hnode]; simpa using hkind⟩
  | none =>
    have hnew : path ∉ ctx.graph.nodes := by
      rw [mem_nodes_iff_outline]
      simp [Ctx.outline, hnode]
    refine (h.assignNew path value).conseq (fun ctx' hc => ?_) (fun _ _ hc => hc) fun _ hc => hc
    obtain ⟨rfl, ⟨⟨hfull, hassigns⟩, -⟩, -⟩ := hc
    exact ⟨hfull, hnew, hassigns⟩

end Operations

end Upheld

end SeamlessWorkflow
