import SeamlessWorkflow.Context.Wiring

/-!
# Operations on one node

Writes to a cell, to the code and the pins of a transformer, and to the configuration of a node.
-/

namespace SeamlessWorkflow

/-- What is written: a bound source, or a checksum (none clears). -/
inductive WriteValue
  | endpoint (ep : BoundEndpoint)
  | checksum (c : Option Checksum)
  deriving DecidableEq, Repr

def bumpRevision (path : NodePath) : M Unit := modify (·.bumpRevision path)

def removeEdgesTargeting (path : NodePath) (localPath : Path) : M Unit :=
  modifyGraph fun g => g.removeEdgesTargeting path localPath true

/-! ## Cells -/

/-- A write through an attachment clears its sense errors. -/
def Ctx.clearSenseErrors (path : NodePath) (ctx : Ctx) : Ctx :=
  { ctx with
    settled := false
    mountSessions := ctx.mountSessions.keys.foldl (fun sessions key =>
      match sessions.lookup key with
      | some session =>
        if key.1 = path then sessions.insert key { session with senseError := none } else sessions
      | none => sessions) ctx.mountSessions }

/-- The stored value that a write gives to a cell. -/
def storeRoot (env : Substrate) (path : NodePath) (checksum : Option Checksum)
    (celltype : Celltype) : M Unit :=
  match checksum with
  | none => replaceRootProducer path none
  | some c => do
    let _ ← cellAt path
    let producer ← retainProducer env c celltype
    replaceRootProducer path (some producer)

/-- `_set_cell_root_with_edges`. -/
def setCellRoot (env : Substrate) (path : NodePath) (checksum : Option Checksum)
    (celltype : Celltype) (clearEdges : Bool) : M Unit := do
  let ctx ← get
  refuseIf (ctx.sessionsFor path ≠ [] ∧ checksum = none) .authorityError
    "Cannot clear a mounted cell; unmount first"
  modify (·.clearSenseErrors path)
  storeRoot env path checksum celltype
  bumpRevision path
  onlyIf clearEdges (removeEdgesTargeting path [])

/-- `input_celltype or node.cell_config.celltype`. -/
def labelCelltype (path : NodePath) (inputCelltype : Option Celltype) : M Celltype :=
  match inputCelltype with
  | some celltype => pure celltype
  | none => do
    let fields ← cellAt path
    pure fields.config.celltype

/-- `_cell_operation`. -/
def cellOperation (env : Substrate) (path : NodePath) (localPath : Path) (value : WriteValue)
    (detach : Bool) (inputCelltype : Option Celltype) : M Unit := do
  let _ ← nodeAt path
  match value with
  | .endpoint ep => do
    addEndpointEdge env ep (cellEndpoint path localPath) detach
    deriveAll env
  | .checksum c => do
    validateWrite path localPath detach
    refuseIf (localPath ≠ []) .runtimeError "Sub-path values must be prepared outside the controller"
    let celltype ← labelCelltype path inputCelltype
    setCellRoot env path c celltype detach
    deriveAll env

/-- What `_update_base` hands to an edit. -/
structure UpdateBase where
  checksum : Option Checksum
  celltype : Celltype
  revision : Nat
  state : NodeState
  incoming : List Path
  deriving DecidableEq, Repr

/-- `_update_base`. -/
def updateBase (path : NodePath) (localPath : Path) (detach : Bool) : M UpdateBase := do
  validateWrite path localPath detach
  let node ← nodeAt path
  let fields ← cellAt path
  let ctx ← get
  pure ⟨node.currentChecksum, fields.config.celltype, ctx.revision path, node.state,
    (ctx.graph.incomingFor path).map Prod.fst⟩

/-- `_commit_update`. -/
def commitUpdate (env : Substrate) (path : NodePath) (localPath : Path) (checksum : Checksum)
    (base : Option Checksum) (revision : Nat) (detach : Bool) : M Bool := do
  validateWrite path localPath detach
  let node ← nodeAt path
  let ctx ← get
  if node.currentChecksum ≠ base ∨ ctx.revision path ≠ revision then pure false
  else do
    let fields ← cellAt path
    setCellRoot env path (some checksum) fields.config.celltype false
    onlyIf detach (removeEdgesTargeting path localPath)
    deriveAll env
    pure true

/-- `_cell_delete_path`. -/
def cellDeletePath (env : Substrate) (path : NodePath) (localPath : Path) : M Unit := do
  refuseIf (localPath ≠ []) .runtimeError "Sub-path deletes must be prepared outside the controller"
  replaceRootProducer path none
  removeEdgesTargeting path []
  deriveAll env

/-! ## The code of a transformer -/

/-- `_retain_code_checksum`. -/
def retainCodeChecksum (path : NodePath) (checksum : Option Checksum) : M Unit :=
  match checksum with
  | none => pure ()
  | some c => modify fun ctx =>
    { ctx.incref c with codeRefholds := ctx.codeRefholds.insert path c }

/-- `_replace_code_checksum`. -/
def replaceCodeChecksum (path : NodePath) (checksum : Option Checksum) : M Unit :=
  modify fun ctx =>
    let old := ctx.codeRefholds.lookup path
    let ctx := match checksum with
      | some c => { ctx.incref c with codeRefholds := ctx.codeRefholds.insert path c }
      | none => { ctx with codeRefholds := ctx.codeRefholds.erase path }
    ctx.decrefAll old.toList

/-- Release the code of a node. -/
def Ctx.releaseCode (path : NodePath) (ctx : Ctx) : Ctx :=
  { ctx.decrefAll (ctx.codeRefholds.lookup path).toList with
    codeRefholds := ctx.codeRefholds.erase path }

/-- `_release_code_checksum`. -/
def releaseCodeChecksum (path : NodePath) : M Unit := modify (·.releaseCode path)

/-- Set the configuration of a transformer. -/
def setTransformerConfig (path : NodePath) (f : TransformerConfig → TransformerConfig) : M Unit :=
  modifyNode path (Node.mapTransformer fun fields => { fields with config := f fields.config })

/-- Drop pins: their stored values and their edges. -/
def dropPins (path : NodePath) (pins : List String) : M Unit :=
  pins.forM fun pin => do
    dropPinProducer path pin
    removeEdgesTargeting path [.key pin]

/-- What `_set_transformer_code` is given: a bound source, or a prepared configuration. -/
inductive CodeValue
  | endpoint (ep : BoundEndpoint)
  | config (cfg : TransformerConfig)

/-- `_set_transformer_code`. -/
def setTransformerCode (env : Substrate) (path : NodePath) (code : CodeValue) : M Unit :=
  match code with
  | .endpoint ep => do
    addEndpointEdge env ep (transformerEndpoint path "code") false
    releaseCodeChecksum path
    let _ ← transformerAt path
    setTransformerConfig path fun cfg => { cfg with codeChecksum := none }
    deriveAll env
  | .config cfg => do
    let fields ← transformerAt path
    setTransformerConfig path fun _ => cfg
    dropPins path (fields.config.pins.filter fun pin => !cfg.pins.contains pin)
    removeEdgesTargeting path [.key "code"]
    bumpRevision path
    replaceCodeChecksum path cfg.codeChecksum
    deriveAll env

/-! ## The pins of a transformer -/

/-- `_clear_transformer_pin`. -/
def clearTransformerPin (env : Substrate) (path : NodePath) (pin : String) : M Unit := do
  dropPinProducer path pin
  removeEdgesTargeting path [.key pin]
  modifyNode path (Node.mapTransformer fun fields =>
    { fields with pinStates := fields.pinStates.erase pin })
  deriveAll env

/-- Declare a pin that is about to be written. -/
def declarePin (path : NodePath) (pin : String) : M Unit :=
  modifyNode path (Node.mapTransformer fun fields =>
    { fields with
      pinReadErrors := fields.pinReadErrors.erase pin
      config := fields.config.declarePin pin })

/-- Store a value at a pin. -/
def setPinProducer (path : NodePath) (pin : String) (producer : ConstantProducer) : M Unit := do
  let old := ((← nodeAt path).transformerFields.bind fun fields => fields.pinProducers.lookup pin)
  modifyNode path (Node.mapTransformer fun fields =>
    { fields with pinProducers := fields.pinProducers.insert pin producer })
  releaseProducer old

/-- Write a value to a declared pin. A checksum of none is `None` with `checksum_rhs`. -/
def writePin (env : Substrate) (path : NodePath) (pin : String) (value : WriteValue)
    (inputCelltype : Option Celltype) : M Unit :=
  match value with
  | .endpoint ep => do
    addEndpointEdge env ep (transformerEndpoint path pin) true
    deriveAll env
  | .checksum none => clearTransformerPin env path pin
  | .checksum (some c) => do
    let fields ← transformerAt path
    let producer ← retainProducer env c (inputCelltype.getD (fields.config.celltypeOf pin))
    setPinProducer path pin producer
    removeEdgesTargeting path [.key pin]
    deriveAll env

/-- `_set_transformer_pin`. -/
def setTransformerPin (env : Substrate) (path : NodePath) (pin : String) (value : WriteValue)
    (inputCelltype : Option Celltype) (detach : Bool) : M Unit := do
  refuseIf (pin = "") .pathError "Transformer pin name must be non-empty"
  let _ ← nodeAt path
  onlyIf (!detach) (checkAuthority path [.key pin])
  let fields ← transformerAt path
  refuseWith (fields.config.checkPinName pin)
  declarePin path pin
  writePin env path pin value inputCelltype

/-- `_delete_transformer_pin`. -/
def deleteTransformerPin (env : Substrate) (path : NodePath) (pin : String) : M Unit := do
  let fields ← transformerAt path
  refuseIf (!fields.config.pins.contains pin ∨ fields.config.signatureParameters.isSome)
    .attributeError pin
  setTransformerConfig path fun cfg => cfg.undeclarePin pin
  clearTransformerPin env path pin

/-- The celltype at which a pin is read: that of its edge, else that of its stored value. -/
def pinInputType (g : ContextGraph) (path : NodePath) (fields : TransformerFields) (pin : String) :
    Option Celltype :=
  match g.incomingEdge path [.key pin] with
  | some edge => some (g.edgeInputCelltype edge)
  | none => (fields.pinProducers.lookup pin).map ConstantProducer.celltype

/-- The fields of a transformer that has a pin, as `_pin_snapshot` finds them. -/
def pinSnapshot (path : NodePath) (pin : String) : M TransformerFields := do
  let ctx ← get
  match ctx.node? path with
  | none => raise .staleWorkflowHandleError ("Endpoint " ++ pathText path ++ " is stale")
  | some node =>
    match node.transformerFields with
    | none => raise .attributeError pin
    | some fields =>
      if fields.config.pins.contains pin then pure fields else raise .attributeError pin

/-- `_record_pin_read_error`: an error is recorded only when the pin is still what was read. -/
def recordPinReadError (env : Substrate) (path : NodePath) (pin : String) (readError : PinReadError) :
    M Unit := do
  let ctx ← get
  let fields ← pinSnapshot path pin
  let state := fields.pinStates.lookup pin
  onlyIf (state.map PinState.state = some .complete ∧
      state.bind PinState.checksum = some readError.checksum ∧
      pinInputType ctx.graph path fields pin = some readError.inputType ∧
      fields.config.celltypeOf pin = readError.outputType) do
    modifyNode path (Node.mapTransformer fun fields =>
      { fields with pinReadErrors := fields.pinReadErrors.insert pin readError })
    deriveAll env

/-! ## Configuration -/

/-- The configuration of a node of either kind. -/
inductive NodeConfig
  | cell (cfg : CellConfig)
  | transformer (cfg : TransformerConfig)
  deriving DecidableEq

def Node.config (node : Node) : NodeConfig :=
  match node.body with
  | .cell fields => .cell fields.config
  | .transformer fields => .transformer fields.config

/-- `_config_snapshot`. -/
def configSnapshot (path : NodePath) : M (NodeConfig × Nat) := do
  let node ← nodeAt path
  let ctx ← get
  pure (node.config, ctx.revision path)

/-- The error of a pin whose celltype changes although its edge projects into another celltype. -/
def pinConfigError (g : ContextGraph) (path : NodePath) (old : TransformerConfig)
    (entry : String × Celltype) : Bool :=
  if old.celltypes.lookup entry.1 = some entry.2 then false
  else match g.incomingEdge path [.key entry.1] with
    | none => false
    | some edge =>
      match g.resolveExisting edge.source with
      | none => false
      | some (sourcePath, sourceLocal) =>
        match (anonymousLinks (g.nodeCelltype sourcePath) sourceLocal
            edge.sourceConversionSteps).getLast? with
        | some (sourceType, projected) => projected ≠ [] && sourceType ≠ entry.2
        | none => false

/-- Does a celltype conflict with a plain projection that feeds the cell? -/
def conflictsWithProjection (g : ContextGraph) (path : NodePath) (celltype : Celltype) : Bool :=
  match g.incomingEdge path [] with
  | none => false
  | some edge =>
    match g.resolveExisting edge.source with
    | none => false
    | some (sourcePath, sourceLocal) =>
      sourceLocal ≠ [] && !edge.sourceConversion && decide (edge.sourceConversionSteps = []) &&
        decide (celltype ≠ g.nodeCelltype sourcePath)

/-- `_publish_config` on a cell, after the revision check. -/
def publishCell (path : NodePath) (old new : CellConfig) : M Unit := do
  let ctx ← get
  refuseIf (ctx.hasAttachments path ∧ new.celltype ≠ old.celltype) .valueError
    "Mounted celltype cannot change; unmount first"
  refuseIf (conflictsWithProjection ctx.graph path new.celltype) .typeError
    "Cannot implicitly convert behind a projection; use as_celltype() before or after projecting"
  modifyNode path (Node.mapCell fun fields => { fields with config := new })

/-- Drop the pins that a compiled configuration no longer has. -/
def dropUndeclaredPins (path : NodePath) (removed : List String) : M Unit := do
  dropPins path removed
  modifyNode path (Node.mapTransformer fun fields => { fields with
    pinReadErrors := removed.foldl (fun errors pin => errors.erase pin) fields.pinReadErrors })

/-- `_publish_config` on a transformer, after the revision check. -/
def publishTransformer (path : NodePath) (old new : TransformerConfig) : M Unit := do
  let ctx ← get
  refuseIf (new.celltypes.any (pinConfigError ctx.graph path old)) .typeError
    "Cannot implicitly convert behind a projection; use as_celltype() before or after projecting"
  onlyIf new.compilation.isSome
    (dropUndeclaredPins path (old.pins.filter fun pin => !new.pins.contains pin))
  setTransformerConfig path fun _ => new

/-- The kinds of `_publish_config`. A configuration of the other kind breaks the derivation. -/
def publishBody (path : NodePath) (body : NodeBody) (config : NodeConfig) : M Unit :=
  match body, config with
  | .cell fields, .cell cfg => publishCell path fields.config cfg
  | .transformer fields, .transformer cfg => publishTransformer path fields.config cfg
  | .cell _, .transformer _ => do
    modify Ctx.poison
    raise .attributeError "'TransformerConfig' object has no attribute 'celltype'"
  | .transformer _, .cell _ =>
    raise .attributeError "'CellConfig' object has no attribute 'celltypes'"

/-- `_publish_config`. -/
def publishConfig (env : Substrate) (path : NodePath) (revision : Nat) (config : NodeConfig) :
    M Bool := do
  let ctx ← get
  if ctx.revision path ≠ revision then pure false
  else do
    let node ← nodeAt path
    publishBody path node.body config
    modify fun ctx => { ctx with revisions := ctx.revisions.insert path (revision + 1) }
    deriveAll env
    pure true

end SeamlessWorkflow
