import SeamlessWorkflow.Proofs.WiringMoves

/-!
# The moves of operations on one node

An operation on a node connects the end point it is given to its own target, and otherwise edits the
node, drops edges into it and derives.
-/

namespace SeamlessWorkflow

open Program Relation

theorem mem_nodes_of_node {ctx : Ctx} {path : NodePath} {node : Node}
    (h : ctx.node? path = some node) : path ∈ ctx.graph.nodes := by
  rw [← AList.lookup_isSome]
  unfold Ctx.node? at h
  simp [h]

theorem keeps_updateBase {I : Ctx → Prop} (path : NodePath) (localPath : Path) (detach : Bool) :
    Keeps I (updateBase path localPath detach) := by
  refine Keeps.bind (keeps_validateWrite _ _ _) fun _ => ?_
  refine Keeps.bind (keeps_nodeAt path) fun _ => ?_
  exact Keeps.bind (keeps_cellAt path) fun _ => Keeps.bind Keeps.get fun _ => Keeps.pure

section Moving

variable {env : Substrate} {lim : Limits} {start : Ctx}

theorem moving_bumpRevision (path : NodePath) :
    Keeps (Moves env lim start) (bumpRevision path) :=
  moving_quiet (quiet_bumpRevision path)

theorem moving_setTransformerConfig (path : NodePath) {f : TransformerConfig → TransformerConfig}
    (hf : ∀ cfg, (f cfg).celltypeOf "result" = cfg.celltypeOf "result") :
    Keeps (Moves env lim start) (setTransformerConfig path f) :=
  moving_mapTransformer path fun fields => hf fields.config

theorem moving_castTransformer {path : NodePath} {config : TransformerConfig}
    (ht : lim.types path (config.celltypeOf "result")) :
    Keeps (Moves env lim start) (setTransformerConfig path fun _ => config) :=
  moving_cast (casts_mapTransformer fun _ => rfl) ht

/-! ## Cells -/

theorem moving_clearSenseErrors (path : NodePath) :
    Keeps (Moves env lim start) (modify (·.clearSenseErrors path) : M Unit) :=
  moving_modify fun _ =>
    .edit ⟨⟨rfl, rfl, rfl⟩, keepsReasons_of_nodes rfl⟩

theorem moving_storeRoot (path : NodePath) (checksum : Option Checksum) (celltype : Celltype) :
    Keeps (Moves env lim start) (storeRoot env path checksum celltype) := by
  cases checksum with
  | none => exact moving_replaceRootProducer path none
  | some c =>
    refine Keeps.bind (keeps_cellAt path) fun _ => ?_
    exact Keeps.bind (moving_retainProducer c celltype) fun _ => moving_replaceRootProducer path _

theorem moving_setCellRoot (path : NodePath) (checksum : Option Checksum) (celltype : Celltype)
    (clearEdges : Bool) :
    Keeps (Moves env lim start) (setCellRoot env path checksum celltype clearEdges) := by
  refine Keeps.bind Keeps.get fun ctx => ?_
  refine Keeps.bind (keeps_refuseIf _ _ _) fun _ => ?_
  refine Keeps.bind (moving_clearSenseErrors path) fun _ => ?_
  refine Keeps.bind (moving_storeRoot path checksum celltype) fun _ => ?_
  refine Keeps.bind (moving_bumpRevision path) fun _ => ?_
  exact keeps_onlyIf (moving_removeEdgesTargeting path [])

theorem moving_cellOperation (path : NodePath) (localPath : Path) (value : WriteValue)
    (detach : Bool) (inputCelltype : Option Celltype) (hjoins : ∀ ep, value = .endpoint ep →
      lim.joins ep.place ∧ lim.joins ⟨path, localPath⟩ ∧
        lim.wires ep.place ⟨path, localPath⟩ ep.recipe) :
    Keeps (Moves env lim start) (cellOperation env path localPath value detach inputCelltype) := by
  refine Triple.inspect (inspects_nodeAt path) (fun _ hc => hc) fun node => ?_
  cases value with
  | endpoint ep =>
    obtain ⟨hsource, htarget, hwires⟩ := hjoins ep rfl
    have htarget : lim.joins (cellEndpoint path localPath).place := htarget
    have hwires : lim.wires ep.place (cellEndpoint path localPath).place ep.recipe := hwires
    refine Triple.bind (moving_wire hsource htarget hwires ?_ detach (fun _ hc => hc.1)
      fun ctx hc => mem_nodes_of_node hc.2) fun _ => moving_deriveAll
    by_cases hl : localPath = []
    · exact Or.inr (by simp [cellEndpoint, hl])
    · exact Or.inl (by simp [cellEndpoint, hl])
  | checksum c =>
    refine Triple.conseq (P := Moves env lim start) ?_ (fun _ hc => hc.1) (fun _ _ h => h)
      fun _ h => h
    refine Keeps.bind (keeps_validateWrite _ _ _) fun _ => ?_
    refine Keeps.bind (keeps_refuseIf _ _ _) fun _ => ?_
    refine Keeps.bind (keeps_labelCelltype _ _) fun _ => ?_
    exact Keeps.bind (moving_setCellRoot _ _ _ _) fun _ => moving_deriveAll

theorem moving_commitUpdate (path : NodePath) (localPath : Path) (checksum : Checksum)
    (base : Option Checksum) (revision : Nat) (detach : Bool) :
    Keeps (Moves env lim start)
      (commitUpdate env path localPath checksum base revision detach) := by
  refine Keeps.bind (keeps_validateWrite _ _ _) fun _ => ?_
  refine Keeps.bind (keeps_nodeAt path) fun _ => ?_
  refine Keeps.bind Keeps.get fun _ => Keeps.ite Keeps.pure ?_
  refine Keeps.bind (keeps_cellAt path) fun _ => ?_
  refine Keeps.bind (moving_setCellRoot _ _ _ _) fun _ => ?_
  refine Keeps.bind (keeps_onlyIf (moving_removeEdgesTargeting _ _)) fun _ => ?_
  exact Keeps.bind moving_deriveAll fun _ => Keeps.pure

theorem moving_cellDeletePath (path : NodePath) (localPath : Path) :
    Keeps (Moves env lim start) (cellDeletePath env path localPath) := by
  refine Keeps.bind (keeps_refuseIf _ _ _) fun _ => ?_
  refine Keeps.bind (moving_replaceRootProducer path none) fun _ => ?_
  exact Keeps.bind (moving_removeEdgesTargeting path []) fun _ => moving_deriveAll

/-! ## The code of a transformer -/

theorem moving_retainCodeChecksum (path : NodePath) (checksum : Option Checksum) :
    Keeps (Moves env lim start) (retainCodeChecksum path checksum) := by
  cases checksum with
  | none => exact Keeps.pure
  | some c => exact moving_quiet fun ctx => .of_eq rfl rfl rfl rfl rfl

theorem moving_replaceCodeChecksum (path : NodePath) (checksum : Option Checksum) :
    Keeps (Moves env lim start) (replaceCodeChecksum path checksum) := by
  refine moving_quiet fun ctx => ?_
  cases checksum with
  | none =>
    exact Quiet.trans (b := { ctx with codeRefholds := ctx.codeRefholds.erase path })
      (.of_eq rfl rfl rfl rfl rfl) (quiet_decrefAll _ _)
  | some c =>
    exact Quiet.trans (b := { ctx.incref c with codeRefholds := ctx.codeRefholds.insert path c })
      (.of_eq rfl rfl rfl rfl rfl) (quiet_decrefAll _ _)

theorem quiet_releaseCode (path : NodePath) (ctx : Ctx) : Quiet ctx (ctx.releaseCode path) :=
  (quiet_decrefAll _ ctx).trans (.of_eq rfl rfl rfl rfl rfl)

theorem moving_releaseCodeChecksum (path : NodePath) :
    Keeps (Moves env lim start) (releaseCodeChecksum path) := moving_quiet (quiet_releaseCode path)

theorem moving_dropPins (path : NodePath) (pins : List String) :
    Keeps (Moves env lim start) (dropPins path pins) :=
  Keeps.forM fun pin _ => Keeps.bind (moving_dropPinProducer path pin) fun _ =>
    moving_removeEdgesTargeting path [.key pin]

/-- Wiring the code of a transformer: the one place that may wire into a missing node. -/
theorem moving_setTransformerCode_endpoint (path : NodePath) (ep : BoundEndpoint)
    (hsource : lim.joins ep.place) (htarget : lim.joins ⟨path, [.key "code"]⟩)
    (hwires : lim.wires ep.place ⟨path, [.key "code"]⟩ ep.recipe) :
    Triple (fun ctx => Moves env lim start ctx ∧ (path ∈ ctx.graph.nodes ∨ lim.stray))
      (setTransformerCode env path (.endpoint ep)) (fun _ => Moves env lim start)
      (Moves env lim start) := by
  have htarget : lim.joins (transformerEndpoint path "code").place := htarget
  have hwires : lim.wires ep.place (transformerEndpoint path "code").place ep.recipe := hwires
  refine Triple.bind (moving_addEndpointEdge hsource htarget hwires (Or.inr le_rfl) false) fun _ => ?_
  refine Keeps.bind (moving_releaseCodeChecksum path) fun _ => ?_
  refine Keeps.bind (keeps_transformerAt path) fun _ => ?_
  exact Keeps.bind (moving_setTransformerConfig path fun _ => rfl) fun _ => moving_deriveAll

theorem moving_setTransformerCode_config {path : NodePath} {cfg : TransformerConfig}
    (ht : lim.types path (cfg.celltypeOf "result")) :
    Keeps (Moves env lim start) (setTransformerCode env path (.config cfg)) := by
  refine Keeps.bind (keeps_transformerAt path) fun fields => ?_
  refine Keeps.bind (moving_castTransformer ht) fun _ => ?_
  refine Keeps.bind (moving_dropPins path _) fun _ => ?_
  refine Keeps.bind (moving_removeEdgesTargeting path _) fun _ => ?_
  refine Keeps.bind (moving_bumpRevision path) fun _ => ?_
  exact Keeps.bind (moving_replaceCodeChecksum path _) fun _ => moving_deriveAll

/-! ## The pins of a transformer -/

theorem moving_clearTransformerPin (path : NodePath) (pin : String) :
    Keeps (Moves env lim start) (clearTransformerPin env path pin) := by
  refine Keeps.bind (moving_dropPinProducer path pin) fun _ => ?_
  refine Keeps.bind (moving_removeEdgesTargeting path _) fun _ => ?_
  exact Keeps.bind (moving_mapTransformer path fun _ => rfl) fun _ => moving_deriveAll

theorem moving_setPinProducer (path : NodePath) (pin : String) (producer : ConstantProducer) :
    Keeps (Moves env lim start) (setPinProducer path pin producer) := by
  refine Keeps.bind (keeps_nodeAt path) fun node => ?_
  exact Keeps.bind (moving_mapTransformer path fun _ => rfl) fun _ => moving_releaseProducer _

/-- A pin that is declared has no say in the celltype of the result. -/
theorem celltypeOf_declarePin (cfg : TransformerConfig) (pin : String) :
    (cfg.declarePin pin).celltypeOf "result" = cfg.celltypeOf "result" := by
  unfold TransformerConfig.declarePin TransformerConfig.celltypeOf
  dsimp only
  split
  · rfl
  · rename_i hnew
    rw [List.lookup_append]
    cases hresult : cfg.celltypes.lookup "result" with
    | some celltype => rfl
    | none =>
      rw [List.lookup_cons]
      split
      · rfl
      · rfl

/-- A pin that is not called as the result has no say in its celltype. -/
theorem celltypeOf_undeclarePin (cfg : TransformerConfig) {pin : String} (hpin : pin ≠ "result") :
    (cfg.undeclarePin pin).celltypeOf "result" = cfg.celltypeOf "result" := by
  unfold TransformerConfig.undeclarePin TransformerConfig.celltypeOf
  dsimp only
  congr 1
  induction cfg.celltypes with
  | nil => rfl
  | cons entry entries ih =>
    obtain ⟨name, celltype⟩ := entry
    by_cases hname : name = pin
    · have hother : ("result" == name) = false := by
        rw [hname]
        exact beq_false_of_ne hpin.symm
      rw [List.filter_cons_of_neg (by simpa using hname), ih, List.lookup_cons, hother]
    · rw [List.filter_cons_of_pos (by simpa using hname), List.lookup_cons, List.lookup_cons, ih]

/-- The nodes that stand after an edit of one of them. -/
theorem mem_nodes_updateNode {g : ContextGraph} {path q : NodePath} {f : Node → Node} :
    q ∈ (g.updateNode path f).nodes ↔ q ∈ g.nodes := by
  rw [← AList.lookup_isSome, ← AList.lookup_isSome, ContextGraph.lookup_updateNode]
  by_cases hq : q = path
  · rw [if_pos hq, hq, Option.isSome_map]
  · rw [if_neg hq]

theorem moving_setTransformerPin (path : NodePath) (pin : String) (value : WriteValue)
    (inputCelltype : Option Celltype) (detach : Bool)
    (hjoins : ∀ ep, value = .endpoint ep →
      lim.joins ep.place ∧ lim.joins ⟨path, [.key pin]⟩ ∧
        lim.wires ep.place ⟨path, [.key pin]⟩ ep.recipe) :
    Keeps (Moves env lim start) (setTransformerPin env path pin value inputCelltype detach) := by
  refine Keeps.bind (keeps_refuseIf _ _ _) fun _ => ?_
  refine Triple.inspect (inspects_nodeAt path) (fun _ hc => hc) fun node => ?_
  refine Triple.inspect (inspects_of_keeps fun P => keeps_onlyIf (keeps_checkAuthority _ _))
    (fun _ hc => hc.1) fun _ => ?_
  refine Triple.inspect (inspects_transformerAt path) (fun _ hc => hc.1.1) fun fields => ?_
  refine Triple.inspect (inspects_refuseWith _) (fun _ hc => hc.1.1.1) fun _ => ?_
  -- the declared pin is on the node that has been looked up
  refine Triple.bind (R := fun _ ctx => Moves env lim start ctx ∧ path ∈ ctx.graph.nodes)
    (Triple.modify fun ctx hc => ?_) fun _ => ?_
  · obtain ⟨⟨⟨⟨hmoves, hnode⟩, -⟩, -⟩, -⟩ := hc
    refine ⟨moves_step hmoves (.edit (.modifyNode (outline_mapTransformer fun fields =>
      celltypeOf_declarePin fields.config pin) fun node _ h =>
        blockReason_mapTransformer node ▸ h)), ?_⟩
    exact mem_nodes_updateNode.mpr (mem_nodes_of_node hnode)
  · cases value with
    | endpoint ep =>
      obtain ⟨hsource, htarget, hwires⟩ := hjoins ep rfl
      have htarget : lim.joins (transformerEndpoint path pin).place := htarget
      have hwires : lim.wires ep.place (transformerEndpoint path pin).place ep.recipe := hwires
      exact Triple.bind (moving_wire hsource htarget hwires (Or.inr le_rfl) true
        (fun _ hc => hc.1) fun ctx hc => hc.2) fun _ => moving_deriveAll
    | checksum c =>
      refine Triple.conseq (P := Moves env lim start) ?_ (fun _ hc => hc.1) (fun _ _ h => h)
        fun _ h => h
      cases c with
      | none => exact moving_clearTransformerPin path pin
      | some c =>
        refine Keeps.bind (keeps_transformerAt path) fun fields => ?_
        refine Keeps.bind (moving_retainProducer _ _) fun producer => ?_
        refine Keeps.bind (moving_setPinProducer path pin producer) fun _ => ?_
        exact Keeps.bind (moving_removeEdgesTargeting path _) fun _ => moving_deriveAll

/-- Without the pin that is called as the result, the result is mixed. -/
theorem celltypeOf_undeclareResult (cfg : TransformerConfig) :
    (cfg.undeclarePin "result").celltypeOf "result" = .mixed := by
  unfold TransformerConfig.undeclarePin TransformerConfig.celltypeOf
  dsimp only
  have hnone : (cfg.celltypes.filter (·.1 ≠ "result")).lookup "result" = none := by
    rw [List.lookup_eq_none_iff]
    intro entry hentry
    simpa using fun h => of_decide_eq_true (List.mem_filter.mp hentry).2 h.symm
  rw [hnone]
  rfl

theorem moving_deleteTransformerPin {path : NodePath} {pin : String}
    (ht : pin = "result" → lim.types path .mixed) :
    Keeps (Moves env lim start) (deleteTransformerPin env path pin) := by
  refine Keeps.bind (keeps_transformerAt path) fun fields => ?_
  refine Keeps.bind (keeps_refuseIf _ _ _) fun _ => ?_
  refine Keeps.bind ?_ fun _ => moving_clearTransformerPin path pin
  by_cases hpin : pin = "result"
  · subst hpin
    exact moving_cast (casts_mapTransformer fun fields => celltypeOf_undeclareResult fields.config)
      (ht rfl)
  · exact moving_setTransformerConfig path fun cfg => celltypeOf_undeclarePin cfg hpin

theorem moving_recordPinReadError (path : NodePath) (pin : String) (readError : PinReadError) :
    Keeps (Moves env lim start) (recordPinReadError env path pin readError) := by
  refine Keeps.bind Keeps.get fun ctx => ?_
  refine Keeps.bind (keeps_pinSnapshot path pin) fun fields => ?_
  exact keeps_onlyIf (Keeps.bind (moving_mapTransformer path fun _ => rfl) fun _ => moving_deriveAll)

/-! ## Configuration -/

/-- The celltype that a configuration gives to its node. -/
def NodeConfig.celltype : NodeConfig → Celltype
  | .cell config => config.celltype
  | .transformer config => config.celltypeOf "result"

theorem moving_publishCell {path : NodePath} (old : CellConfig) {new : CellConfig}
    (ht : lim.types path new.celltype) :
    Keeps (Moves env lim start) (publishCell path old new) := by
  refine Keeps.bind Keeps.get fun ctx => ?_
  refine Keeps.bind (keeps_refuseIf _ _ _) fun _ => ?_
  exact Keeps.bind (keeps_refuseIf _ _ _) fun _ => moving_cast (casts_mapCell fun _ => rfl) ht

theorem moving_publishTransformer {path : NodePath} (old : TransformerConfig)
    {new : TransformerConfig} (ht : lim.types path (new.celltypeOf "result")) :
    Keeps (Moves env lim start) (publishTransformer path old new) := by
  refine Keeps.bind Keeps.get fun ctx => ?_
  refine Keeps.bind (keeps_refuseIf _ _ _) fun _ => ?_
  refine Keeps.bind (keeps_onlyIf ?_) fun _ => moving_castTransformer ht
  exact Keeps.bind (moving_dropPins path _) fun _ => moving_mapTransformer path fun _ => rfl

theorem moving_publishBody {path : NodePath} (body : NodeBody) {config : NodeConfig}
    (ht : lim.types path config.celltype) :
    Keeps (Moves env lim start) (publishBody path body config) := by
  unfold publishBody
  split
  · exact moving_publishCell _ ht
  · exact moving_publishTransformer _ ht
  · exact Keeps.bind (moving_quiet quiet_poison) fun _ => keeps_raise _ _
  · exact keeps_raise _ _

theorem moving_publishConfig {path : NodePath} (revision : Nat) {config : NodeConfig}
    (ht : lim.types path config.celltype) :
    Keeps (Moves env lim start) (publishConfig env path revision config) := by
  refine Keeps.bind Keeps.get fun ctx => Keeps.ite Keeps.pure ?_
  refine Keeps.bind (keeps_nodeAt path) fun node => ?_
  refine Keeps.bind (moving_publishBody _ ht) fun _ => ?_
  refine Keeps.bind (moving_quiet fun ctx => .of_eq rfl rfl rfl rfl rfl) fun _ => ?_
  exact Keeps.bind moving_deriveAll fun _ => Keeps.pure

end Moving

end SeamlessWorkflow
