import SeamlessWorkflow.Context.DeriveGraph
import SeamlessWorkflow.Library.Program

/-!
# Wiring

The operations run inside a turn of the controller. A turn is a program over the Context: it may
raise in its middle, and what it has changed before stays changed.
-/

namespace SeamlessWorkflow

/-- A program of a controller turn. -/
abbrev M := EStateM Error Ctx

/-- Raise an exception. -/
def raise {α : Type} (kind : ErrorKind) (text : String) : M α := throw ⟨kind, text, 0⟩

/-- `if c: raise …`. -/
def refuseIf (c : Prop) [Decidable c] (kind : ErrorKind) (text : String) : M Unit :=
  if c then raise kind text else pure ()

/-- Raise an error, when there is one. -/
def refuseWith (e : Option Error) : M Unit :=
  match e with
  | some e => throw e
  | none => pure ()

/-- `if c: …`. -/
def onlyIf (c : Prop) [Decidable c] (program : M Unit) : M Unit := if c then program else pure ()

/-- The text of a path, as a tuple. -/
def pathText (path : Path) : String :=
  let component : Component → String
    | .key name => "'" ++ name ++ "'"
    | .index i => toString i
    | .slice start stop step =>
      let bound : Option Int → String := fun b => (b.map toString).getD "None"
      "slice(" ++ bound start ++ ", " ++ bound stop ++ ", " ++ bound step ++ ")"
  match path with
  | [k] => "(" ++ component k ++ ",)"
  | path => "(" ++ ", ".intercalate (path.map component) ++ ")"

/-- `self._graph.nodes[path]`. -/
def nodeAt (path : NodePath) : M Node := do
  match (← get).node? path with
  | some node => pure node
  | none => raise .keyError (pathText path)

/-- The fields of a cell node; on a transformer node `cell_config` is `None`. -/
def cellAt (path : NodePath) : M CellFields := do
  match (← nodeAt path).body with
  | .cell fields => pure fields
  | .transformer _ => raise .attributeError "'NoneType' object has no attribute 'celltype'"

/-- The fields of a transformer node; on a cell node `transformer_config` is `None`. -/
def transformerAt (path : NodePath) : M TransformerFields := do
  match (← nodeAt path).body with
  | .transformer fields => pure fields
  | .cell _ => raise .attributeError "'NoneType' object has no attribute 'pins'"

/-- `resolve_existing` on the live graph. -/
def resolve (viewPath : ViewPath) : M (NodePath × Path) := do
  match (← get).graph.resolveExisting viewPath with
  | some r => pure r
  | none => raise .keyError (pathText viewPath)

def modifyGraph (f : ContextGraph → ContextGraph) : M Unit := modify (·.modifyGraph f)

/-- Change the record of a node. -/
def modifyNode (path : NodePath) (f : Node → Node) : M Unit :=
  modifyGraph fun g => g.updateNode path f

/-- Refuse all further work after a failure inside the controller. -/
def Ctx.poison (ctx : Ctx) : Ctx := { ctx with poisoned := true, closing := true, effects := [] }

/-- `_derive_all`. -/
def deriveAll (env : Substrate) : M Unit := do
  let ctx ← get
  match sortPaths ctx.graph.nodes.keys, Ctx.sourcesResolve ctx.graph with
  | some sorted, true =>
    match ctx.beginDerivation.graphRaises env sorted with
    | none => set (ctx.beginDerivation.deriveGraph env sorted)
    | some raised => do
      set raised.unsettle.poison
      raise .indexError "tuple index out of range"
  | none, _ => do
    set ctx.beginDerivation.poison
    raise .typeError "'<' not supported between instances of 'int' and 'str'"
  | some _, false => do
    set ctx.beginDerivation.poison
    raise .keyError "source"

/-! ## Checks -/

/-- `_check_authority`. -/
def checkAuthority (path : NodePath) (localPath : Path) : M Unit := do
  let ctx ← get
  refuseIf (ctx.graph.incomingEdge path localPath).isSome .authorityError
    ("Endpoint " ++ pathText path ++ pathText localPath ++ " has an incoming producer")

/-- Does an incoming edge at `target` control a write at `localPath`? -/
def controls (detach : Bool) (localPath target : Path) : Bool :=
  let ancestor := decide (target.length < localPath.length) &&
    decide (localPath.take target.length = target)
  let covered := decide (target.take localPath.length = localPath)
  ancestor || (covered && !detach)

/-- `_validate_write`. -/
def validateWrite (path : NodePath) (localPath : Path) (detach : Bool) : M Unit := do
  let ctx ← get
  refuseIf ((ctx.graph.incomingFor path).any fun entry => controls detach localPath entry.1)
    .authorityError
    ("Cell " ++ pathText path ++ pathText localPath ++ " is controlled by an incoming edge")

/-- The conversion steps of an endpoint. -/
def BoundEndpoint.steps (ep : BoundEndpoint) (rootType : Celltype) : List ConversionStep :=
  if ep.conversion && decide (ep.conversionSteps = []) then
    [(if ep.conversionBefore then 0 else ep.localPath.length, ep.celltype.getD rootType)]
  else ep.conversionSteps

/-- The implicit conversion of a pathless source into the cell it is wired to. -/
def implicitStep (ctx : Ctx) (source : BoundEndpoint) (target : Option BoundEndpoint) :
    List ConversionStep :=
  match target.bind fun target => (ctx.node? target.nodePath).map fun node => (target, node) with
  | some (target, node) =>
    if source.localPath = [] && target.kind = .cellResult && target.localPath = [] &&
        node.isCell && node.celltype ≠ source.celltype.getD (ctx.graph.nodeCelltype source.nodePath)
    then [(0, node.celltype)]
    else []
  | none => []

/-- `_check_deep_link`: refuse a deep link outside the deep tables. -/
def checkDeepLink (env : Substrate) (source : BoundEndpoint) (target : Option BoundEndpoint) :
    M Unit := do
  let ctx ← get
  let rootType := ctx.graph.nodeCelltype source.nodePath
  refuseWith (if source.nodePath ∈ ctx.graph.nodes then
      deepRecipeError env rootType source.localPath
        (source.steps rootType ++ implicitStep ctx source target)
    else none)

/-! ## Edges -/

/-- What a new edge delivers: the conversion fields of its source. -/
structure EdgeRecipe where
  sourceCelltype : Option Celltype := none
  conversion : Bool := false
  conversionBefore : Bool := false
  conversionSteps : List ConversionStep := []

/-- Append an edge and the symbols of its anonymous links. -/
def appendEdge (env : Substrate) (edge : Edge) : M Unit := do
  match (← get).graph.registerEdgeSymbols env edge with
  | some (edge, graph) => modifyGraph fun _ => { graph with edges := graph.edges ++ [edge] }
  | none => raise .keyError (pathText edge.source)

/-- May a root edge and sub-path edges not be combined on a cell? -/
def mixesRoot (incoming : List (Path × Edge)) (targetLocal : Path) : Bool :=
  if targetLocal = [] then incoming.any fun entry => decide (entry.1 ≠ [])
  else (incoming.lookup []).isSome

/-- The checks of `_add_edge`. -/
def checkEdge (sourceNode targetNode : NodePath) (targetLocal : Path) (detach : Bool) : M Unit := do
  let ctx ← get
  let node ← nodeAt targetNode
  refuseIf (node.isCell ∧ mixesRoot (ctx.graph.incomingFor targetNode) targetLocal) .dependencyError
    "A root connection cannot be combined with sub-path connections"
  refuseIf (ctx.hasSensing targetNode) .authorityError
    "Sensing mount is the producer; unmount first"
  refuseIf (sourceNode = targetNode) .dependencyError "Self-dependencies are not supported"
  refuseIf (ctx.graph.wouldCycle sourceNode targetNode) .dependencyError "Dependency cycle"
  if detach then validateWrite targetNode targetLocal true else checkAuthority targetNode targetLocal

/-- `_add_edge`. -/
def addEdge (env : Substrate) (source target : Place) (recipe : EdgeRecipe) (detach : Bool) :
    M Unit := do
  let (sourceNode, _) ← resolve source.flat
  let (targetNode, targetLocal) ← resolve target.flat
  checkEdge sourceNode targetNode targetLocal detach
  let node ← nodeAt targetNode
  modifyGraph fun g => g.removeEdgesTargeting targetNode targetLocal true
  appendEdge env
    { source := source.flat, target := target.flat, sourceCelltype := recipe.sourceCelltype
      sourceConversion := recipe.conversion, sourceConversionBefore := recipe.conversionBefore
      sourceConversionSteps := recipe.conversionSteps
      deepMember := targetLocal ≠ [] && node.isCell && node.celltype.isDeep
      sourcePlace := source, targetPlace := target }
  deriveAll env

/-! ## Producers -/

/-- A stored value with its checksum canonicalized. -/
def ConstantProducer.canonical (env : Substrate) (producer : ConstantProducer) : ConstantProducer :=
  ⟨env.canonicalize producer.checksum producer.celltype, producer.celltype⟩

/-- `_retain_producer`: acquire a stored value. -/
def retainProducer (env : Substrate) (checksum : Checksum) (celltype : Celltype) :
    M ConstantProducer := do
  let producer := (⟨checksum, celltype⟩ : ConstantProducer).canonical env
  modify (·.incref producer.checksum)
  pure producer

/-- `_release_producer`. -/
def releaseProducer (producer : Option ConstantProducer) : M Unit :=
  modify (·.decrefAll (producer.map ConstantProducer.checksum).toList)

/-- Give a cell another stored value, and release the old one. -/
def replaceRootProducer (path : NodePath) (producer : Option ConstantProducer) : M Unit := do
  let old := ((← nodeAt path).cellFields.bind CellFields.rootProducer)
  modifyNode path (Node.mapCell fun fields => { fields with rootProducer := producer })
  releaseProducer old

/-- Drop the stored value of a pin. -/
def dropPinProducer (path : NodePath) (pin : String) : M Unit := do
  let old := ((← nodeAt path).transformerFields.bind fun fields => fields.pinProducers.lookup pin)
  modifyNode path (Node.mapTransformer fun fields =>
    { fields with pinProducers := fields.pinProducers.erase pin })
  releaseProducer old

/-! ## Endpoints -/

def cellEndpoint (path : NodePath) (localPath : Path) : BoundEndpoint :=
  { nodePath := path, kind := if localPath = [] then .cellResult else .cellSubvalue
    localPath := localPath, canSource := true }

def transformerEndpoint (path : NodePath) (pin : String) : BoundEndpoint :=
  { nodePath := path, kind := if pin = "code" then .transformerCode else .transformerInput
    localPath := [.key pin], canSource := false }

def BoundEndpoint.place (ep : BoundEndpoint) : Place := ⟨ep.nodePath, ep.localPath⟩

/-- `source_ep.celltype or self._node_celltype(source_ep.node_path)`. -/
def endpointCelltype (source : BoundEndpoint) : M Celltype := do
  match source.celltype with
  | some celltype => pure celltype
  | none => do
    let node ← nodeAt source.nodePath
    pure node.celltype

/-- Refuse a projected source of another celltype. -/
def checkProjected (source : BoundEndpoint) (sourceType targetType : Celltype) : M Unit :=
  refuseIf (source.localPath ≠ [] ∧ targetType ≠ sourceType ∧ !source.conversion) .typeError
    ("would convert " ++ sourceType.name ++ " -> " ++ targetType.name ++ " behind a projection.")

/-- The key of a join slot that `_add_endpoint_edge` refuses. -/
def slotKeyError : Component → Option Error
  | .index i => if i < 0 then
      some ⟨.valueError, "Cell connection targets cannot use negative integer keys", 0⟩ else none
  | .key name => if name = "<root>" ∨ name = "<numeric>" then
      some ⟨.valueError, "Cell connection target '" ++ name ++ "' is reserved", 0⟩ else none
  | .slice .. => some ⟨.pathError, "Cell connection targets are limited to one point component", 0⟩

/-- The checks on a slot of a deep cell. -/
def checkDeepSlot (source : BoundEndpoint) (k : Component) (targetType : Celltype) : M Unit := do
  let sourceType ← endpointCelltype source
  refuseIf (!k.isKey) .valueError "Deep Cell connection targets require a string key"
  refuseIf (sourceType ≠ deepMemberType targetType) .typeError
    "Deep Cell connections require the member celltype"

/-- The checks of `_add_endpoint_edge` on a join slot. -/
def checkSlot (source target : BoundEndpoint) : M Unit := do
  match target.localPath with
  | [k] =>
    refuseIf k.isSlice .pathError "Cell connection targets are limited to one point component"
    let fields ← cellAt target.nodePath
    let targetType := fields.config.celltype
    refuseIf (!targetType.isPinCelltype) .pathError
      "Cell subvalue connections require a container-capable Cell"
    refuseWith (slotKeyError k)
    onlyIf targetType.isDeep (checkDeepSlot source k targetType)
    onlyIf (source.localPath ≠ []) do
      let sourceType ← endpointCelltype source
      checkProjected source sourceType (projectedCelltype targetType [k])
  | _ => raise .pathError "Cell connection targets are limited to one point component"

/-- The shape error of a plain source that is wired to a pin. -/
def pinShapeError (env : Substrate) (node : Node) (sourceType pinType : Celltype) : Option Error :=
  match node.currentChecksum with
  | some c => if env.isNull c then none else env.shapeError [] sourceType pinType
  | none => none

/-- The checks of `_add_endpoint_edge` on a pin. -/
def checkPin (env : Substrate) (source target : BoundEndpoint) (pin : String) : M Unit := do
  let fields ← transformerAt target.nodePath
  let pinType := fields.config.celltypeOf pin
  let sourceType ← endpointCelltype source
  refuseIf (source.localPath ≠ [] ∧ sourceType ≠ pinType) .typeError
    ("would convert " ++ sourceType.name ++ " -> " ++ pinType.name ++ " behind a projection.")
  onlyIf (source.localPath = [] ∧ !source.conversion ∧ sourceType ≠ pinType) do
    let node ← nodeAt source.nodePath
    refuseWith (pinShapeError env node sourceType pinType)

/-- The checks of `_add_endpoint_edge` on the root of a cell. -/
def checkRoot (source target : BoundEndpoint) : M Unit :=
  onlyIf (source.localPath ≠ []) do
    let fields ← cellAt target.nodePath
    let sourceType ← endpointCelltype source
    checkProjected source sourceType fields.config.celltype

/-- The checks of `_add_endpoint_edge` on the target of the edge. -/
def checkTarget (env : Substrate) (source target : BoundEndpoint) : M Unit :=
  match target.kind, target.localPath with
  | .cellSubvalue, _ => checkSlot source target
  | .transformerInput, [.key pin] => checkPin env source target pin
  | .transformerInput, _ => raise .pathError "Transformer targets must address a whole pin"
  | .cellResult, _ => checkRoot source target
  | _, _ => pure ()

/-- The stored value that an edge replaces is released. -/
def dropReplaced (target : BoundEndpoint) : M Unit := do
  let node ← nodeAt target.nodePath
  if node.isCell then
    if target.localPath = [] then replaceRootProducer target.nodePath none
  else match target.localPath with
    | [.key pin] => dropPinProducer target.nodePath pin
    | _ => pure ()

/-- `_add_endpoint_edge`. -/
def addEndpointEdge (env : Substrate) (source target : BoundEndpoint) (detach : Bool) : M Unit := do
  refuseIf (!source.sameContext ∨ !target.sameContext) .dependencyError
    "Cross-top-level dependencies are not supported"
  refuseIf (!source.canSource) .dependencyError "Endpoint cannot be used as a source"
  checkDeepLink env source (some target)
  checkTarget env source target
  addEdge env source.place target.place
    { sourceCelltype := source.celltype, conversion := source.conversion
      conversionBefore := source.conversionBefore, conversionSteps := source.conversionSteps }
    detach
  dropReplaced target

end SeamlessWorkflow
