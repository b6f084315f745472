import SeamlessWorkflow.Context.Operations

/-!
# Operations on the namespace

Creation, replacement and deletion of nodes, namespace copies, and the replacement of the whole
graph.
-/

namespace SeamlessWorkflow

/-! ## Deletion -/

/-- Cancel the runs of a node and drop its records. -/
def Ctx.dropRuns (path : NodePath) (ctx : Ctx) : Ctx :=
  let records := ctx.runtime.recordsAt path
  ({ ctx with runtime := ctx.runtime.dropNode path }.cancelRuns records).unsettle

/-- `_mount_detach` without deriving. -/
def Ctx.detach (path : NodePath) (driver : String) (ctx : Ctx) : Ctx :=
  if (ctx.mountSessions.lookup (path, driver)).isNone then ctx
  else
    { ctx with mountSessions := ctx.mountSessions.erase (path, driver) }.modifyGraph fun g =>
      g.updateNode path fun node =>
        if driver = "file" then { node with mount := none }
        else if driver = "share" then { node with share := none }
        else { node with widgets := node.widgets.filter fun entry => entry.1 ≠ driver }

/-- `_mount_detach_all`. -/
def Ctx.detachAll (path : NodePath) (ctx : Ctx) : Ctx :=
  (ctx.mountSessions.keys.filter fun key => decide (key.1 = path)).foldl
    (fun ctx key => ctx.detach path key.2) ctx

/-- The checksums of the producers of a node. -/
def Node.producerChecksums (node : Node) : List Checksum :=
  match node.body with
  | .cell fields => (fields.rootProducer.map ConstantProducer.checksum).toList
  | .transformer fields => fields.pinProducers.entries.map fun entry => entry.2.checksum

/-- Take a node out of the graph. -/
def ContextGraph.eraseNode (g : ContextGraph) (path : NodePath) : ContextGraph :=
  { g with nodes := g.nodes.erase path }

/-- Release what a node has claimed. -/
def Ctx.releaseNode (path : NodePath) (node : Node) (ctx : Ctx) : Ctx :=
  (ctx.decrefAll (node.currentChecksum.toList ++ node.producerChecksums)).releaseCode path

/-- Remove one node and release what it claims. -/
def Ctx.deleteNode (ctx : Ctx) (path : NodePath) : Ctx :=
  let ctx := ctx.detachAll path
  match ctx.node? path with
  | none => ctx
  | some node =>
    ((ctx.modifyGraph fun g => g.eraseNode path).releaseNode path node).dropRuns path

/-- Does a flattened end point lie at or below `path`? -/
def below (path viewPath : Path) : Bool := decide (viewPath.take path.length = path)

/-- Drop the namespaces and the edges at or below a path. -/
def ContextGraph.dropBelow (g : ContextGraph) (path : NodePath) : ContextGraph :=
  { g with
    namespaces := g.namespaces.filter fun entry => !below path entry
    edges := g.edges.filter fun edge => !below path edge.source && !below path edge.target }

/-- `sorted` of the nodes at or below a path. -/
def sortedDescendants (path : NodePath) : M (List NodePath) := do
  let ctx ← get
  match ctx.graph.descendants path with
  | none => raise .typeError "'<' not supported between instances of 'int' and 'str'"
  | some descendants => pure descendants

/-- `_delete_subtree`. -/
def deleteSubtree (env : Substrate) (path : NodePath) : M Unit := do
  let descendants ← sortedDescendants path
  modify fun ctx => descendants.foldl Ctx.deleteNode ctx
  modifyGraph fun g => g.dropBelow path
  modify fun ctx => ctx.syncModuleRefholds.syncSupersededRefholds
  deriveAll env

/-- `_delete` of a path that names no node and no namespace. -/
def deleteInside (env : Substrate) (g : ContextGraph) (path : NodePath) : M Unit :=
  match g.resolveExisting path with
  | none => pure ()
  | some (node, localPath) =>
    if ((g.nodes.lookup node).map Node.isCell).getD false then cellDeletePath env node localPath
    else match localPath with
      | [.key pin] => deleteTransformerPin env node pin
      | _ => pure ()

/-- `_delete`. -/
def delete (env : Substrate) (path : NodePath) : M Unit := do
  refuseIf (path.head? = some (.key "shares")) .pathError "shares is a reserved Context API name"
  let ctx ← get
  if path ∈ ctx.graph.nodes ∨ ctx.graph.hasPrefix path then deleteSubtree env path
  else deleteInside env ctx.graph path

/-! ## Cells -/

/-- Put a new node at a path. -/
def putNewNode (path : NodePath) (body : NodeBody) : M Unit :=
  modify fun ctx =>
    { ctx.modifyGraph (fun g => g.putNode path { ident := ctx.nextIdent, body := body }) with
      nextIdent := ctx.nextIdent + 1 }

/-- `_create_cell`. -/
def createCell (path : NodePath) (config : CellConfig) : M Unit := do
  let ctx ← get
  refuseIf (path ∈ ctx.graph.nodes) .nodeError (pathText path)
  putNewNode path (.cell { config := config })

/-- The configuration of a prepared cell builder. -/
structure CellRecipe where
  inputCelltype : Option Celltype := none
  celltype : Celltype := .mixed
  validator : Option String := none
  validatorLanguage : Option String := none
  scratch : Bool := false
  deriving DecidableEq, Repr

def CellRecipe.config (recipe : CellRecipe) : CellConfig :=
  ⟨recipe.celltype, recipe.validator, recipe.validatorLanguage, recipe.scratch⟩

/-- One link of an Expression, innermost first. -/
structure ExpressionLink where
  path : Path
  inputCelltype : Celltype
  celltype : Celltype
  deriving DecidableEq, Repr

/-- The input of a prepared cell builder that is not another builder. -/
inductive InputRef
  | unset
  | checksum (c : Checksum)
  | expression (first : ExpressionLink) (links : List ExpressionLink) (root : Checksum)
  | rootExpression (expression : RootExpression)
  | endpoint (ep : BoundEndpoint)
  deriving DecidableEq, Repr

/-- A prepared cell builder: its own recipe, the recipes of the builders it reads from in turn, and
the input of the last of them. -/
structure PreparedCell where
  recipe : CellRecipe
  upstream : List CellRecipe := []
  input : InputRef
  deriving DecidableEq, Repr

/-- The path, the conversion steps and the celltype of the links of an Expression. -/
def expressionSteps (first : ExpressionLink) (links : List ExpressionLink) :
    Path × List ConversionStep × Celltype :=
  (first :: links).foldl (fun acc link =>
    let localPath := acc.1 ++ link.path
    let current := projectedCelltype acc.2.2 link.path
    if link.celltype ≠ current then
      (localPath, acc.2.1 ++ [((localPath.length : Int), link.celltype)], link.celltype)
    else (localPath, acc.2.1, current)) ([], [], first.inputCelltype)

/-- Give a cell a configuration and a stored value, as a builder does. -/
def installCell (path : NodePath) (config : CellConfig) (producer : Option ConstantProducer)
    (expression : Option RootExpression) (bump : Bool) : M Unit := do
  modifyNode path (Node.mapCell fun fields =>
    { fields with config := config, rootExpression := expression })
  replaceRootProducer path producer
  onlyIf bump (bumpRevision path)
  removeEdgesTargeting path []

/-- A builder detaches a mounted cell. -/
def detachForBuilder (path : NodePath) (celltype : Celltype) : M Unit := do
  let node ← nodeAt path
  let ctx ← get
  onlyIf (ctx.hasAttachments path) do
    refuseIf (celltype ≠ node.celltype) .valueError "Mounted celltype cannot change; unmount first"
    modify fun ctx => ctx.detachAll path
    modifyNode path fun node => { node with mount := none, share := none, widgets := [] }

/-- The hidden scratch cell that holds the root of an Expression. -/
def createExpressionRoot (env : Substrate) (root : Checksum) (celltype : Celltype) : M NodePath := do
  let ctx ← get
  let path := ctx.graph.firstFree "cell"
  createCell path { celltype := celltype, scratch := true }
  let producer ← retainProducer env root celltype
  replaceRootProducer path (some producer)
  pure path

/-- The edge recipe of the steps of an Expression. -/
def expressionRecipe (steps : List ConversionStep) (celltype : Celltype) : EdgeRecipe :=
  { sourceCelltype := some celltype, conversion := steps ≠ []
    conversionBefore := steps.head?.any fun step => decide (step.1 = 0)
    conversionSteps := steps }

/-- `_replace_cell_from_builder` for an input that is not another builder. -/
def bindInput (env : Substrate) (path : NodePath) (recipe : CellRecipe) (input : InputRef) :
    M Unit :=
  match input with
  | .unset => installCell path recipe.config none none false
  | .checksum c => do
    let producer ← retainProducer env c (recipe.inputCelltype.getD recipe.celltype)
    installCell path recipe.config (some producer) none true
  | .endpoint ep => do
    addEndpointEdge env ep (cellEndpoint path []) false
    modifyNode path (Node.mapCell fun fields => { fields with config := recipe.config })
  | .rootExpression expression => installCell path recipe.config none (some expression) true
  | .expression first links root => do
    let source ← createExpressionRoot env root first.inputCelltype
    let steps := expressionSteps first links
    installCell path recipe.config none none true
    addEdge env ⟨source, steps.1⟩ ⟨path, []⟩ (expressionRecipe steps.2.1 steps.2.2) false

/-- The common start of `_replace_cell_from_builder`. -/
def beginReplacement (path : NodePath) (recipe : CellRecipe) : M Unit := do
  detachForBuilder path recipe.celltype
  modifyNode path (Node.mapCell fun fields => { fields with rootExpression := none })

/-- `_replace_cell_from_builder`: the first list holds the builders that the cell reads from in
turn. Each of them becomes a cell with a free name; a failed creation deletes that cell again. -/
def replaceCellFromBuilder (env : Substrate) :
    List CellRecipe → NodePath → CellRecipe → InputRef → M Unit
  | [], path, recipe, input => do
    beginReplacement path recipe
    bindInput env path recipe input
  | next :: rest, path, recipe, input => do
    beginReplacement path recipe
    let ctx ← get
    let source := ctx.graph.firstFree "cell"
    createCell source { celltype := next.celltype }
    tryCatch (replaceCellFromBuilder env rest source next input) fun e => do
      deleteSubtree env source
      throw e
    addEdge env ⟨source, []⟩ ⟨path, []⟩ {} false
    modifyNode path (Node.mapCell fun fields => { fields with config := recipe.config })

/-- `_create_cell_from_builder`. -/
def createCellFromBuilder (env : Substrate) (path : NodePath) (cell : PreparedCell) : M Unit := do
  createCell path { celltype := cell.recipe.celltype }
  tryCatch (replaceCellFromBuilder env cell.upstream path cell.recipe cell.input) fun e => do
    deleteSubtree env path
    throw e

/-! ## Transformers -/

/-- A prepared transformer builder. -/
structure PreparedTransformer where
  config : TransformerConfig
  args : List (String × BoundEndpoint ⊕ String × Checksum) := []
  inputCelltypes : List (String × Celltype) := []

/-- The pin and the value of an argument. -/
def argPin : String × BoundEndpoint ⊕ String × Checksum → String × WriteValue
  | .inl (pin, ep) => (pin, .endpoint ep)
  | .inr (pin, c) => (pin, .checksum (some c))

/-- `_create_transformer`. -/
def createTransformer (path : NodePath) (config : TransformerConfig) : M Unit := do
  putNewNode path (.transformer { config := config })
  retainCodeChecksum path config.codeChecksum

/-- `_create_transformer_from_builder`. -/
def createTransformerFromBuilder (env : Substrate) (path : NodePath)
    (transformer : PreparedTransformer) : M Unit :=
  tryCatch (do
      createTransformer path transformer.config
      transformer.args.forM fun arg =>
        setTransformerPin env path (argPin arg).1 (argPin arg).2
          (transformer.inputCelltypes.lookup (argPin arg).1) true)
    fun e => do
      deleteSubtree env path
      throw e

/-- The checks of `_replace_transformer_from_builder` on one argument. -/
def checkReplacementArg (path : NodePath) (pin : String) (value : WriteValue) : M Unit :=
  match value with
  | .checksum _ => pure ()
  | .endpoint ep => do
    refuseIf (!ep.sameContext) .dependencyError "Cross-top-level dependencies are not supported"
    refuseIf (!ep.canSource) .dependencyError "Endpoint cannot be used as a source"
    let source ← resolve ep.place.flat
    let ctx ← get
    refuseIf (source.1 = path ∨ ctx.graph.wouldCycle source.1 path) .dependencyError
      "Dependency cycle"
    checkAuthority path [.key pin]

/-- The module checksums of a configuration, by name. -/
def moduleChecksums (modules : List (String × ModuleValue)) : List (String × Checksum) :=
  modules.filterMap fun entry =>
    match entry.2 with
    | .checksum c => some (entry.1, c)
    | .other _ => none

/-- Publish the replacement: the new configuration and stored values, and their held references. -/
def publishReplacement (path : NodePath) (config : TransformerConfig)
    (producers : AList (fun _ : String => ConstantProducer)) (code : Checksum) : M Unit := do
  modifyNode path (Node.mapTransformer fun fields =>
    { fields with config := config, pinProducers := producers })
  modify fun ctx => { ctx with
    codeRefholds := ctx.codeRefholds.insert path code
    moduleRefholds := (moduleChecksums config.modules).foldl
      (fun table entry => table.insert (path, entry.1) entry.2)
      ((ctx.moduleRefholds.keys.filter fun role => decide (role.1 = path)).foldl
        (fun table role => table.erase role) ctx.moduleRefholds) }

/-- The configuration that a builder gives to an existing transformer. -/
def replacementConfig (old new : TransformerConfig) : TransformerConfig :=
  if new.signatureParameters.isSome then new
  else { new with pins := new.pins ++ old.pins.filter fun pin => !new.pins.contains pin }

/-- The literal arguments of a builder, and the stored values they become. -/
def literalArgs (args : List (String × WriteValue)) : List (String × Checksum) :=
  args.filterMap fun arg =>
    match arg.2 with
    | .checksum (some c) => some (arg.1, c)
    | _ => none

def freshProducers (env : Substrate) (config : TransformerConfig)
    (inputCelltypes : List (String × Celltype)) (literals : List (String × Checksum)) :
    List (String × ConstantProducer) :=
  literals.map fun entry =>
    let celltype := (inputCelltypes.lookup entry.1).getD (config.celltypeOf entry.1)
    (entry.1, (⟨entry.2, celltype⟩ : ConstantProducer).canonical env)

/-- Does a stored value of the old transformer stay? -/
def keepsProducer (config : TransformerConfig) (args : List (String × WriteValue)) (pin : String) :
    Bool :=
  config.pins.contains pin && !args.any fun arg => decide (arg.1 = pin)

/-- The stored values of the replaced transformer. -/
def replacementProducers (config : TransformerConfig) (args : List (String × WriteValue))
    (fresh : List (String × ConstantProducer)) (old : AList (fun _ : String => ConstantProducer)) :
    AList (fun _ : String => ConstantProducer) :=
  fresh.foldl (fun table entry => table.insert entry.1 entry.2)
    ((old.keys.filter fun pin => !keepsProducer config args pin).foldl
      (fun table pin => table.erase pin) old)

/-- Wire the endpoint arguments of a builder. -/
def wireArgs (env : Substrate) (path : NodePath) (args : List (String × WriteValue)) : M Unit :=
  args.forM fun arg =>
    match arg.2 with
    | .endpoint ep => setTransformerPin env path arg.1 (.endpoint ep) none true
    | .checksum _ => pure ()

/-- What follows the publication of a replaced transformer. -/
def finishReplacement (env : Substrate) (path : NodePath) (old : TransformerFields)
    (config : TransformerConfig) (args : List (String × WriteValue)) (released : List Checksum) :
    M Unit := do
  modify (·.decrefAll released)
  let removed := old.config.pins.filter fun pin => !config.pins.contains pin
  (removed ++ args.map Prod.fst).forM fun pin => removeEdgesTargeting path [.key pin]
  removeEdgesTargeting path [.key "code"]
  bumpRevision path
  wireArgs env path args
  deriveAll env

/-- The references that the replaced transformer held. -/
def replacedHolds (ctx : Ctx) (path : NodePath) (old : TransformerFields)
    (config : TransformerConfig) (args : List (String × WriteValue)) : List Checksum :=
  ((old.pinProducers.entries.filter fun entry => !keepsProducer config args entry.1).map
    fun entry => entry.2.checksum) ++
  (ctx.codeRefholds.lookup path).toList ++
  ((ctx.moduleRefholds.entries.filter fun entry => decide (entry.1.1 = path)).map
    fun entry => entry.2)

/-- `_replace_transformer_from_builder` once its arguments are staged: a builder without code fails
here, and what has been staged is released. -/
def installReplacement (env : Substrate) (path : NodePath) (old : TransformerFields)
    (config : TransformerConfig) (args : List (String × WriteValue))
    (fresh : List (String × ConstantProducer)) : M Unit :=
  match config.codeChecksum with
  | none => do
    modify (·.decrefAll ((literalArgs args).map Prod.snd))
    raise .attributeError "'NoneType' object has no attribute 'incref_refholder'"
  | some code => do
    modify (·.increfAll (code :: (moduleChecksums config.modules).map Prod.snd))
    let ctx ← get
    publishReplacement path config (replacementProducers config args fresh old.pinProducers) code
    tryCatch
      (finishReplacement env path old config args (replacedHolds ctx path old config args))
      fun e => do
        modify Ctx.poison
        throw e

/-- `_replace_transformer_from_builder`. Everything new is acquired before anything is published;
a failure after that poisons the Context. -/
def replaceTransformerFromBuilder (env : Substrate) (path : NodePath)
    (transformer : PreparedTransformer) : M Unit := do
  let fields ← transformerAt path
  let config := replacementConfig fields.config transformer.config
  let args := transformer.args.map argPin
  args.forM fun arg => checkReplacementArg path arg.1 arg.2
  let fresh := freshProducers env config transformer.inputCelltypes (literalArgs args)
  modify (·.increfAll (fresh.map fun entry => entry.2.checksum))
  installReplacement env path fields config args fresh

/-! ## Assignment -/

/-- What is assigned to a path, as the ingress has prepared it. -/
inductive AssignValue
  | context
  | subcontext (sourcePrefix : NodePath)
  | endpoint (ep : BoundEndpoint)
  | cell (cell : PreparedCell)
  | transformer (transformer : PreparedTransformer)
  | config (cfg : TransformerConfig)
  | checksum (c : Checksum)

/-- The node that a transformer becomes when it is replaced by a bound source. -/
def Node.toCell (celltype : Celltype) (node : Node) : Node :=
  { node with body := .cell { config := { celltype := celltype } }, exception := none }

/-- `_assign` of a bound source to a transformer: the node becomes a cell. -/
def replaceTransformerBySource (env : Substrate) (path : NodePath) (ep : BoundEndpoint) :
    M Unit := do
  refuseIf (!ep.sameContext) .dependencyError
    "Cannot connect sources from a different top-level Context"
  let celltype ← endpointCelltype ep
  let ctx ← get
  refuseIf (!ep.canSource ∨ ep.nodePath = path ∨ ctx.graph.wouldCycle ep.nodePath path)
    .dependencyError "Invalid source for transformer replacement"
  checkDeepLink env ep none
  modify (·.replaceCurrentChecksum env path none)
  let node ← nodeAt path
  modify (·.decrefAll node.producerChecksums)
  releaseCodeChecksum path
  modify (·.dropRuns path)
  modifyGraph fun g => (g.replaceEdgesTo path).updateNode path (Node.toCell celltype)
  modify fun ctx => ctx.syncModuleRefholds.syncSupersededRefholds
  addEndpointEdge env ep (cellEndpoint path []) false

/-- `_assign` to a cell. -/
def assignCell (env : Substrate) (path : NodePath) (value : AssignValue) : M Unit :=
  match value with
  | .endpoint ep => addEndpointEdge env ep (cellEndpoint path []) true
  | .cell cell => replaceCellFromBuilder env cell.upstream path cell.recipe cell.input
  | .checksum c => cellOperation env path [] (.checksum (some c)) true none
  | .context | .subcontext _ | .transformer _ | .config _ => do
    validateWrite path [] true
    modify (·.clearSenseErrors path)
    raise .typeError "not a checksum"

/-- `_assign` to a transformer. -/
def assignTransformer (env : Substrate) (path : NodePath) (value : AssignValue) : M Unit :=
  match value with
  | .endpoint ep => replaceTransformerBySource env path ep
  | .transformer transformer => replaceTransformerFromBuilder env path transformer
  | .config cfg => setTransformerCode env path (.config cfg)
  | .context | .subcontext _ | .cell _ | .checksum _ =>
    raise .nodeError "Cannot replace a transformer node with a non-transformer value"

/-- A copied node: a new object with the same fields. -/
def Node.copy (env : Substrate) (ident : Nat) (node : Node) : Node :=
  let body := match node.body with
    | .cell fields => NodeBody.cell { fields with
        rootProducer := fields.rootProducer.map (ConstantProducer.canonical env)
        rootExpression := fields.rootExpression.map fun (e : RootExpression) => { e with ident } }
    | .transformer fields => NodeBody.transformer { fields with
        pinProducers := fields.pinProducers.entries.foldl (fun table entry =>
          table.insert entry.1 (entry.2.canonical env)) ∅ }
  { node with ident := ident, body := body }

/-- Copy one node of a namespace: whatever is at the copied path is overwritten. -/
def Ctx.copyNode (env : Substrate) (sourcePrefix targetPrefix : NodePath) (ctx : Ctx)
    (path : NodePath) : Ctx :=
  match ctx.node? path with
  | none => ctx
  | some node =>
    let copied := targetPrefix ++ path.drop sourcePrefix.length
    let copy := node.copy env ctx.nextIdent
    let ctx := { ctx.modifyGraph (fun g => g.putNode copied copy) with
      nextIdent := ctx.nextIdent + 1 }
    let ctx := ctx.increfAll (copy.producerChecksums ++ copy.currentChecksum.toList)
    match copy.transformerFields.bind fun fields => fields.config.codeChecksum with
    | some code => { ctx.incref code with codeRefholds := ctx.codeRefholds.insert copied code }
    | none => ctx

/-- The place that the copy of an end point is meant for. -/
def copyPlace (sourcePrefix targetPrefix : NodePath) (place : Place) : Place :=
  if below sourcePrefix place.node then
    ⟨targetPrefix ++ place.node.drop sourcePrefix.length, place.localPath⟩
  else ⟨targetPrefix ++ place.flat.drop sourcePrefix.length, []⟩

theorem copyPlace_flat (sourcePrefix targetPrefix : NodePath) (place : Place) :
    (copyPlace sourcePrefix targetPrefix place).flat =
      targetPrefix ++ place.flat.drop sourcePrefix.length := by
  unfold copyPlace
  split
  · rename_i h
    have hlen : sourcePrefix.length ≤ place.node.length := by
      have := congrArg List.length (of_decide_eq_true h)
      rw [List.length_take] at this
      omega
    simp [Place.flat, List.drop_append_of_le_length hlen]
  · simp [Place.flat]

/-- An edge inside a namespace, moved to its copy. -/
def Edge.copy (sourcePrefix targetPrefix : NodePath) (edge : Edge) : Edge :=
  { edge with
    source := targetPrefix ++ edge.source.drop sourcePrefix.length
    target := targetPrefix ++ edge.target.drop sourcePrefix.length
    sourceChain := []
    sourcePlace := copyPlace sourcePrefix targetPrefix edge.sourcePlace
    targetPlace := copyPlace sourcePrefix targetPrefix edge.targetPlace
    sourceFlat := by rw [copyPlace_flat, edge.sourceFlat]
    targetFlat := by rw [copyPlace_flat, edge.targetFlat] }

/-- Copy one edge inside a namespace, with its anonymous links on the copied source. -/
def copyEdge (env : Substrate) (sourcePrefix targetPrefix : NodePath) (edge : Edge) : M Unit := do
  let copied := edge.copy sourcePrefix targetPrefix
  if edge.sourceChain = [] then appendEdge env copied
  else do
    let source ← resolve copied.source
    let ctx ← get
    let chain := ctx.graph.assignChain env source.1
      (edge.sourceChain.map fun recipe => (recipe.celltype, recipe.path))
    modifyGraph fun _ => chain.2
    appendEdge env { copied with sourceChain := chain.1 }

/-- Register a namespace. -/
def ContextGraph.addNamespace (g : ContextGraph) (path : NodePath) : ContextGraph :=
  { g with namespaces := if g.namespaces.contains path then g.namespaces
      else g.namespaces ++ [path] }

/-- The edges inside a namespace. -/
def ContextGraph.edgesBelow (g : ContextGraph) (path : NodePath) : List Edge :=
  g.edges.filter fun edge => below path edge.source && below path edge.target

/-- `_copy_subcontext`. -/
def copySubcontext (env : Substrate) (sourcePrefix targetPrefix : NodePath) : M Unit := do
  modifyGraph fun g => g.addNamespace targetPrefix
  let descendants ← sortedDescendants sourcePrefix
  modify fun ctx => descendants.foldl (Ctx.copyNode env sourcePrefix targetPrefix) ctx
  let ctx ← get
  (ctx.graph.edgesBelow sourcePrefix).forM fun edge => copyEdge env sourcePrefix targetPrefix edge
  deriveAll env

/-- `_assign` to a path without a node. -/
def assignNew (env : Substrate) (path : NodePath) (value : AssignValue) : M Unit :=
  match value with
  | .context => modifyGraph fun g => g.addNamespace path
  | .subcontext sourcePrefix => copySubcontext env sourcePrefix path
  | .endpoint ep => do
    refuseIf (!ep.sameContext) .dependencyError
      "Cannot connect sources from a different top-level Context"
    let celltype ← endpointCelltype ep
    checkDeepLink env ep none
    createCell path { celltype := celltype }
    addEndpointEdge env ep (cellEndpoint path []) false
  | .cell cell => createCellFromBuilder env path cell
  | .transformer transformer => createTransformerFromBuilder env path transformer
  | .config cfg => createTransformer path cfg
  | .checksum c => do
    createCell path {}
    cellOperation env path [] (.checksum (some c)) true none

/-- The branches of `_assign`. -/
def assignTo (env : Substrate) (path : NodePath) (value : AssignValue) : M Unit := do
  let ctx ← get
  match ctx.node? path with
  | some node => if node.isCell then assignCell env path value else assignTransformer env path value
  | none => assignNew env path value

/-- `_assign`. -/
def assign (env : Substrate) (path : NodePath) (value : AssignValue) : M Unit := do
  refuseIf (path.head? = some (.key "shares")) .pathError "shares is a reserved Context API name"
  refuseIf (path = [.key "mounts"]) .attributeError
    "mounts is reserved for the Context mount API"
  assignTo env path value
  deriveAll env

end SeamlessWorkflow
