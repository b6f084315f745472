import SeamlessWorkflow.Graph.Links
import Mathlib.Data.List.AList

/-!
# Nodes, edges and configurations

The durable records of a workflow graph. A node is either a cell or a transformer, and carries the
fields of its own kind only.
-/

namespace SeamlessWorkflow

/-- A checksum, as the number its hexadecimal digits spell. -/
structure Checksum where
  value : Nat
  deriving DecidableEq, Repr

/-- The exception classes that operations raise. -/
inductive ErrorKind
  | pathError | dependencyError | authorityError | nodeError | staleWorkflowHandleError
  | valueUnavailableError | concurrentUpdateError | typeError | valueError | keyError
  | indexError | attributeError | runtimeError | executionError | mountError | controllerFailedError
  | closedContextError
  deriving DecidableEq, Repr

/-- An exception: its class, its text, and the identity of the Python object. -/
structure Error where
  kind : ErrorKind
  text : String
  ident : Nat := 0
  deriving DecidableEq, Repr

/-- A stored value: a checksum and the celltype its buffer was serialized with. -/
structure ConstantProducer where
  checksum : Checksum
  celltype : Celltype
  deriving DecidableEq, Repr

structure CellConfig where
  celltype : Celltype := .mixed
  validator : Option String := none
  validatorLanguage : Option String := none
  scratch : Bool := false
  deriving DecidableEq, Repr

/-- A Python callable used as code, with the parameter names of its signature when they can be
read. -/
structure Callable where
  parameters : Option (List String)
  deriving DecidableEq, Repr

/-- What the `code` field of a transformer holds: a buffer, which can be decoded, or a checksum. -/
inductive CodeSource
  | buffer (text : String)
  | checksum (c : Checksum)
  deriving DecidableEq, Repr

/-- An entry of the `modules` mapping. Only checksums are held. -/
inductive ModuleValue
  | checksum (c : Checksum)
  | other (data : String)
  deriving DecidableEq, Repr

/-- The `meta` mapping: the one key that derivation reads, and the text of the others. -/
structure Meta where
  allowInputFingertip : Bool := false
  others : String := ""
  deriving DecidableEq, Repr

structure TransformerConfig where
  configToken : String := ""
  schema : Option String := none
  compilation : Option String := none
  objects : Option String := none
  header : Option String := none
  code : Option CodeSource := none
  codeChecksum : Option Checksum := none
  language : String := "python"
  callable : Option Callable := none
  pins : List String := []
  celltypes : List (String × Celltype) := [("result", .mixed)]
  optionalPins : List String := []
  modules : List (String × ModuleValue) := []
  globals : String := ""
  metadata : Meta := {}
  environment : Option String := none
  scratch : Bool := false
  isLocal : Option Bool := none
  streaming : Bool := false
  direct : Bool := false
  deriving DecidableEq, Repr

namespace TransformerConfig

/-- `celltypes.get(name, "mixed")`. -/
def celltypeOf (cfg : TransformerConfig) (name : String) : Celltype :=
  (cfg.celltypes.lookup name).getD .mixed

/-- `signature_parameters`: the parameter names the code accepts, `none` when unconstrained. -/
def signatureParameters (cfg : TransformerConfig) : Option (List String) :=
  if cfg.compilation.isSome then some cfg.pins
  else match cfg.callable with
    | none => none
    | some callable => callable.parameters

/-- `check_pin_name` without `allow_result`: reject a pin name the signature cannot accept. -/
def checkPinName (cfg : TransformerConfig) (name : String) : Option Error :=
  if name = "result" then
    some ⟨.attributeError, "'result' is the transformer result, not an input pin", 0⟩
  else if (cfg.celltypes.lookup name).isSome || cfg.pins.contains name then none
  else match cfg.signatureParameters with
    | none => none
    | some parameters =>
      if parameters.contains name then none
      else some ⟨.attributeError, "Unknown transformer pin '" ++ name ++
        "': the transformer signature has no such parameter", 0⟩

/-- `cfg.pins.add(pin); cfg.celltypes.setdefault(pin, "mixed")`. -/
def declarePin (cfg : TransformerConfig) (pin : String) : TransformerConfig :=
  { cfg with
    pins := if cfg.pins.contains pin then cfg.pins else cfg.pins ++ [pin]
    celltypes := if (cfg.celltypes.lookup pin).isSome then cfg.celltypes
      else cfg.celltypes ++ [(pin, .mixed)] }

/-- The config side of `_delete_transformer_pin`. -/
def undeclarePin (cfg : TransformerConfig) (pin : String) : TransformerConfig :=
  { cfg with
    pins := cfg.pins.filter (· ≠ pin)
    celltypes := cfg.celltypes.filter (·.1 ≠ pin)
    optionalPins := cfg.optionalPins.filter (· ≠ pin) }

end TransformerConfig

inductive NodeState
  | miswired | unwired | blocked | waiting | computing | complete | failed
  deriving DecidableEq, Repr

/-- A reason why an input is not available. -/
inductive Reason
  | miswired | unwired | blockedByMiswiring | blockedByUnwired | blockedByError | waiting
  deriving DecidableEq, Repr

/-- The `block_reason` of a node: one reason, or a reason for each join slot. -/
inductive BlockReason
  | one (reason : Reason)
  | slots (reasons : List (Component × Reason))
  deriving DecidableEq, Repr

/-- The derived state of one pin. -/
structure PinState where
  state : NodeState
  checksum : Option Checksum
  error : Option Error
  deriving DecidableEq, Repr

/-- A failed read of a pin: the checksum and celltypes it was read at, and the error. -/
structure PinReadError where
  checksum : Checksum
  inputType : Celltype
  outputType : Celltype
  error : Error
  deriving DecidableEq, Repr

/-- A root expression of a cell: an Expression over something else than a checksum. -/
structure RootExpression where
  ident : Nat
  celltype : Celltype
  deriving DecidableEq, Repr

structure CellFields where
  config : CellConfig
  rootProducer : Option ConstantProducer := none
  rootExpression : Option RootExpression := none
  deriving DecidableEq, Repr

structure TransformerFields where
  config : TransformerConfig
  pinProducers : AList (fun _ : String => ConstantProducer) := ∅
  pinStates : AList (fun _ : String => PinState) := ∅
  pinReadErrors : AList (fun _ : String => PinReadError) := ∅
  blockPins : List String := []
  pinBlockReasons : List (String × Reason) := []
  deriving DecidableEq

/-- The kind of a node with the fields of that kind. -/
inductive NodeBody
  | cell (fields : CellFields)
  | transformer (fields : TransformerFields)
  deriving DecidableEq

/-- A file mount specification. -/
structure AttachmentSpec where
  path : String
  mode : String := "rw"
  authority : String := "file"
  persistent : Bool := true
  deriving DecidableEq, Repr

/-- A share specification. -/
structure ShareSpec where
  path : String
  readonly : Bool := true
  mimetype : Option String := none
  toplevel : Bool := false
  deriving DecidableEq, Repr

/-- Does a mount or share sense, that is, write into its node? -/
def AttachmentSpec.senses (spec : AttachmentSpec) : Bool := decide (spec.mode ≠ "w")

def ShareSpec.senses (spec : ShareSpec) : Bool := !spec.readonly

structure Node where
  /-- The identity of the Python object. -/
  ident : Nat
  body : NodeBody
  state : NodeState := .unwired
  blockReason : Option BlockReason := none
  currentChecksum : Option Checksum := none
  exception : Option Error := none
  mount : Option AttachmentSpec := none
  share : Option ShareSpec := none
  /-- The other attachments: the driver, and whether it senses. -/
  widgets : List (String × Bool) := []
  deriving DecidableEq

namespace Node

def isCell (node : Node) : Bool :=
  match node.body with
  | .cell _ => true
  | .transformer _ => false

def cellFields (node : Node) : Option CellFields :=
  match node.body with
  | .cell fields => some fields
  | .transformer _ => none

def transformerFields (node : Node) : Option TransformerFields :=
  match node.body with
  | .cell _ => none
  | .transformer fields => some fields

/-- The celltype of a node's result. -/
def celltype (node : Node) : Celltype :=
  match node.body with
  | .cell fields => fields.config.celltype
  | .transformer fields => fields.config.celltypeOf "result"

/-- `_node_scratch`. -/
def scratch (node : Node) : Bool :=
  match node.body with
  | .cell fields => fields.config.scratch
  | .transformer fields => fields.config.scratch

/-- Replace the fields of a cell; a transformer is unchanged. -/
def mapCell (f : CellFields → CellFields) (node : Node) : Node :=
  match node.body with
  | .cell fields => { node with body := .cell (f fields) }
  | .transformer _ => node

/-- Replace the fields of a transformer; a cell is unchanged. -/
def mapTransformer (f : TransformerFields → TransformerFields) (node : Node) : Node :=
  match node.body with
  | .cell _ => node
  | .transformer fields => { node with body := .transformer (f fields) }

end Node

/-- What an anonymous link reads: a named node, or the previous link by its symbol. -/
inductive RecipeSource
  | node (path : NodePath)
  | symbol (name : String)
  deriving DecidableEq, Repr

/-- The recipe `(source, celltype, path)` of an anonymous link. -/
structure Recipe where
  source : RecipeSource
  celltype : Celltype
  path : Path
  deriving DecidableEq, Repr

/-- The anonymous link of a recipe. -/
def Recipe.link (recipe : Recipe) : Link := (recipe.celltype, recipe.path)

/-- A node and a path inside it: the end point an edge is meant for. -/
structure Place where
  node : NodePath
  localPath : Path
  deriving DecidableEq, Repr

def Place.flat (place : Place) : ViewPath := place.node ++ place.localPath

structure Edge where
  source : ViewPath
  target : ViewPath
  sourceCelltype : Option Celltype := none
  sourceConversion : Bool := false
  sourceConversionBefore : Bool := false
  sourceConversionSteps : List ConversionStep := []
  sourceChain : List Recipe := []
  deepMember : Bool := false
  /-- The end points the edge was added for. The code stores their flattened paths only. -/
  sourcePlace : Place
  targetPlace : Place
  sourceFlat : source = sourcePlace.flat := by rfl
  targetFlat : target = targetPlace.flat := by rfl
  deriving DecidableEq, Repr

/-- `BoundEndpoint` kinds. -/
inductive EndpointKind
  | cellResult | transformerResult | cellSubvalue | transformerInput | transformerCode
  deriving DecidableEq, Repr

structure BoundEndpoint where
  /-- Does the endpoint belong to this Context (`top_id`)? -/
  sameContext : Bool := true
  nodePath : NodePath
  kind : EndpointKind
  localPath : Path := []
  canSource : Bool := true
  celltype : Option Celltype := none
  conversion : Bool := false
  conversionBefore : Bool := false
  conversionSteps : List ConversionStep := []
  deriving DecidableEq, Repr

end SeamlessWorkflow
