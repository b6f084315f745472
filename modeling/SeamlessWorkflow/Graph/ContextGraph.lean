import SeamlessWorkflow.Graph.Nodes
import SeamlessWorkflow.Library.LongestPrefix
import SeamlessWorkflow.Library.Reach
import SeamlessWorkflow.Library.Dict

/-!
# The context graph

The graph of a Context with its lookups: the resolution of a view path, the symbols of anonymous
links, and what an edge is as its target derives it.
-/

namespace SeamlessWorkflow

/-- What `validate_pin` of a compiled transformer answers. -/
inductive PinVerdict
  | valid
  | mixedValueError (e : Error)
  | typeError (e : Error)

/-- The functions of the external packages that the workflow layer calls. -/
structure Substrate where
  /-- Membership in `conversion_trivial | conversion_reinterpret`. -/
  preserving : Celltype → Celltype → Bool
  /-- `validate_expression_shape`: the error it raises. -/
  shapeError : Path → Celltype → Celltype → Option Error
  /-- The error that the `Expression` constructor raises, from path, types and validator. -/
  expressionError : Path → Celltype → Celltype → Option String → Option String → Option Error
  /-- `canonicalize_checksum`. -/
  canonicalize : Checksum → Celltype → Checksum
  /-- `is_null`. -/
  isNull : Checksum → Bool
  /-- `CellJoin.from_inputs`: the checksum of the join, or a `TypeError`. -/
  celljoin : Celltype → Option Checksum → List (Component × Checksum) → Except Error Checksum
  /-- `Expression.compute` on a root expression. -/
  computeExpression : RootExpression → Except Error Checksum
  /-- The checksums that a root expression holds itself. -/
  expressionHolds : RootExpression → List Checksum
  /-- `validate_pin_null` for a pin that is not optional. -/
  pinNullError : Checksum → Celltype → String → Option Error
  /-- `validate_stage1` of a compiled transformer. -/
  stage1Error : TransformerConfig → Option Error
  /-- `validate_pin` of a compiled transformer. -/
  validatePin : TransformerConfig → String → Celltype → Checksum → PinVerdict
  /-- The config token that `fingerprint` computes. -/
  fingerprint : TransformerConfig → String
  /-- The `validate_celltype` of an attachment driver. -/
  attachmentError : Celltype → String → Option Error
  /-- The checksum of the null value. -/
  nullChecksum : Checksum
  /-- The checksum of a code buffer. -/
  bufferChecksum : String → String → Checksum
  /-- The input names and the header of a compiled schema, when it can be read. -/
  signature : Option String → Option (List String × String)
  /-- `validate_declarations` of a compiled transformer. -/
  declarationsError : Option String → List (String × Celltype) → Option Error
  /-- `_symbol_base`: five hexadecimal characters of a hash of the recipe. -/
  symbolBase : Recipe → String

/-- `fingerprint(cfg)`, which stores the token in the configuration. -/
def Substrate.withToken (env : Substrate) (cfg : TransformerConfig) : TransformerConfig :=
  { cfg with configToken := env.fingerprint cfg }

structure ContextGraph where
  nodes : AList (fun _ : NodePath => Node) := ∅
  edges : List Edge := []
  namespaces : List NodePath := []
  symbols : AList (fun _ : Recipe => String) := ∅

namespace ContextGraph

/-- `resolve_existing`: the longest node prefix of a view path, and the rest. -/
def resolveExisting (g : ContextGraph) (viewPath : ViewPath) : Option (NodePath × Path) :=
  LongestPrefix.split (fun p => decide (p ∈ g.nodes)) viewPath

/-- The end point that a view path is meant for when it is all that is known: what it resolves to. -/
def placeOf (g : ContextGraph) (viewPath : ViewPath) : Place :=
  match g.resolveExisting viewPath with
  | some (node, localPath) => ⟨node, localPath⟩
  | none => ⟨viewPath, []⟩

theorem placeOf_flat (g : ContextGraph) (viewPath : ViewPath) :
    viewPath = (g.placeOf viewPath).flat := by
  unfold placeOf
  cases h : g.resolveExisting viewPath with
  | none => exact (List.append_nil viewPath).symm
  | some r => exact (LongestPrefix.reads_of_split (n := r.1) (l := r.2) h).flat.symm

/-- `has_prefix`. -/
def hasPrefix (g : ContextGraph) (path : NodePath) : Bool :=
  g.nodes.keys.any (fun p => decide (p.take path.length = path)) || g.namespaces.contains path

/-- `descendants`: the nodes at or below a path, sorted; `none` when they do not compare. -/
def descendants (g : ContextGraph) (path : NodePath) : Option (List NodePath) :=
  sortPaths (g.nodes.keys.filter fun p => decide (p.take path.length = path))

/-- `first_free`. -/
def firstFree (g : ContextGraph) (stem : String) : NodePath :=
  Dict.firstFree (fun p => decide (p ∈ g.nodes) || g.namespaces.contains p)
    (fun index => [.key (stem ++ toString index)]) (g.nodes.keys.length + g.namespaces.length + 1) 1

/-- `node_celltype`. Callers pass existing nodes only. -/
def nodeCelltype (g : ContextGraph) (path : NodePath) : Celltype :=
  ((g.nodes.lookup path).map Node.celltype).getD .mixed

/-- The nodes at the two ends of an edge, when both resolve. -/
def edgeNodes (g : ContextGraph) (edge : Edge) : Option (NodePath × NodePath) :=
  match g.resolveExisting edge.source, g.resolveExisting edge.target with
  | some (s, _), some (t, _) => some (s, t)
  | _, _ => none

/-- `assign_symbol`: the symbol of `recipe`, assigning one if it has none. -/
def assignSymbol (env : Substrate) (g : ContextGraph) (recipe : Recipe) : String × ContextGraph :=
  match g.symbols.lookup recipe with
  | some symbol => (symbol, g)
  | none =>
    let used := g.symbols.entries.map fun entry => entry.2
    let base := env.symbolBase recipe
    let name := fun suffix : Nat => if suffix = 0 then base else base ++ "-" ++ toString suffix
    let symbol := Dict.firstFree (fun candidate => used.contains candidate) name (used.length + 1) 0
    (symbol, { g with symbols := g.symbols.insert recipe symbol })

/-- The loop of `assign_chain`, with the source key of the next link. -/
def assignChainFrom (env : Substrate) (g : ContextGraph) (sourceKey : RecipeSource) :
    List Link → List Recipe × ContextGraph
  | [] => ([], g)
  | (celltype, path) :: links =>
    let recipe : Recipe := ⟨sourceKey, celltype, path⟩
    let (symbol, g) := g.assignSymbol env recipe
    let (recipes, g) := assignChainFrom env g (.symbol symbol) links
    (recipe :: recipes, g)

/-- `assign_chain`. -/
def assignChain (env : Substrate) (g : ContextGraph) (sourceNode : NodePath) (links : List Link) :
    List Recipe × ContextGraph :=
  assignChainFrom env g (.node sourceNode) links

/-- The conversion steps of an edge, with the single step that a bare `source_conversion` stands
for. -/
def conversionSteps (edge : Edge) (localPath : Path) (sourceType : Celltype) : List ConversionStep :=
  if edge.sourceConversion then
    if edge.sourceConversionSteps ≠ [] then edge.sourceConversionSteps
    else [(if edge.sourceConversionBefore then 0 else localPath.length, sourceType)]
  else []

/-- `register_edge_symbols`. An edge whose source does not resolve raises `KeyError`. -/
def registerEdgeSymbols (env : Substrate) (g : ContextGraph) (edge : Edge) :
    Option (Edge × ContextGraph) :=
  if edge.sourceChain ≠ [] then
    some (edge, edge.sourceChain.foldl (fun g recipe => (g.assignSymbol env recipe).2) g)
  else match g.resolveExisting edge.source with
    | none => none
    | some (sourceNode, localPath) =>
      let sourceType := g.nodeCelltype sourceNode
      let steps := conversionSteps edge localPath (edge.sourceCelltype.getD sourceType)
      let links := anonymousLinks sourceType localPath steps
      if links = [] then some (edge, g)
      else
        let (chain, g) := g.assignChain env sourceNode links
        some ({ edge with sourceChain := chain }, g)

/-- The loop of `chain_miswired`; `sourceCelltype` is the celltype the next link reads. -/
def chainMiswiredFrom (g : ContextGraph) : List Recipe → Option Celltype → Bool
  | [], _ => false
  | recipe :: chain, sourceCelltype =>
    let judge (source : Option Celltype) : Bool :=
      let miswired := match source with
        | none => decide (recipe.path ≠ [])
        | some source => linkMiswired source recipe.celltype recipe.path
      miswired || chainMiswiredFrom g chain (some recipe.celltype)
    match recipe.source with
    | .node path => if path ∈ g.nodes then judge (some (g.nodeCelltype path)) else false
    | .symbol _ => judge sourceCelltype

/-- `chain_miswired`: is any recorded link of an anonymous chain ill-formed? -/
def chainMiswired (g : ContextGraph) (chain : List Recipe) : Bool :=
  chainMiswiredFrom g chain none

/-- `edge_target_celltype`: the celltype at the target of an edge. -/
def edgeTargetCelltype (g : ContextGraph) (edge : Edge) : Option Celltype :=
  match g.resolveExisting edge.target with
  | none => none
  | some (targetNode, targetLocal) =>
    match (g.nodes.lookup targetNode).map Node.body with
    | some (.cell fields) => some (projectedCelltype fields.config.celltype targetLocal)
    | some (.transformer fields) =>
      match targetLocal with
      | [.key name] => if name = "code" then none else some (fields.config.celltypeOf name)
      | [_] => some .mixed
      | _ => none
    | none => none

/-- Does the edge put a converted source into a slot of a deep cell? -/
def convertsIntoDeepSlot (g : ContextGraph) (edge : Edge) : Bool :=
  match g.resolveExisting edge.target with
  | none => false
  | some (targetNode, targetLocal) =>
    match (g.nodes.lookup targetNode).map Node.body with
    | some (.cell fields) =>
      edge.sourceConversion && targetLocal ≠ [] && fields.config.celltype.isDeep
    | _ => false

/-- `looks_through`: is `edge` a dummy edge from a single link? -/
def looksThrough (g : ContextGraph) (edge : Edge) : Bool :=
  match edge.sourceChain with
  | [⟨.node sourceKey, celltype, path⟩] =>
    if sourceKey ∉ g.nodes then false
    else if g.convertsIntoDeepSlot edge then false
    else if path ≠ [] && !edge.sourceConversion then true
    else decide (path = []) && decide (some celltype = g.edgeTargetCelltype edge)
  | _ => false

/-- `reads_as_one_link`. -/
def readsAsOneLink (g : ContextGraph) (edge : Edge) : Bool :=
  match edge.sourceChain with
  | ⟨.node sourceKey, _, path⟩ :: _ =>
    decide (path = []) || decide ((anonymousLinks (g.nodeCelltype sourceKey) path []).length = 1)
  | _ => true

/-- How an edge's anonymous links leave its target. -/
inductive Miswiring
  | miswired
  | blockedByMiswiring
  deriving DecidableEq, Repr

/-- `edge_miswiring`. -/
def edgeMiswiring (g : ContextGraph) (edge : Edge) : Option Miswiring :=
  if g.looksThrough edge then
    if !g.readsAsOneLink edge then some .miswired
    else match edge.sourceChain, g.edgeTargetCelltype edge with
      | ⟨.node sourceKey, _, path⟩ :: _, some targetCelltype =>
        if path ≠ [] && !targetCelltype.isDeep &&
            linkMiswired (g.nodeCelltype sourceKey) targetCelltype path then some .miswired
        else none
      | _, _ => none
  else if g.chainMiswired edge.sourceChain then some .blockedByMiswiring
  else none

/-- `collapses_on_save`. -/
def collapsesOnSave (g : ContextGraph) (edge : Edge) : Bool :=
  g.looksThrough edge && g.readsAsOneLink edge

/-- `own_link`: `edge` as its target derives and reports it. -/
def ownLink (g : ContextGraph) (edge : Edge) : Edge :=
  if g.looksThrough edge then
    { source := edge.source, target := edge.target, sourceChain := edge.sourceChain
      deepMember := edge.deepMember, sourcePlace := edge.sourcePlace
      targetPlace := edge.targetPlace
      sourceFlat := edge.sourceFlat, targetFlat := edge.targetFlat }
  else edge

/-- One round of `_incoming_for`. -/
def incomingStep (g : ContextGraph) (path : NodePath) (result : List (Path × Edge)) (edge : Edge) :
    List (Path × Edge) :=
  match g.resolveExisting edge.target with
  | some (targetNode, targetLocal) =>
    if targetNode = path then Dict.setItem targetLocal (g.ownLink edge) result else result
  | none => result

/-- `_incoming_for`: the incoming edges of a node by target path, as the node derives them. -/
def incomingFor (g : ContextGraph) (path : NodePath) : List (Path × Edge) :=
  g.edges.foldl (g.incomingStep path) []

/-- `_incoming_edge`: the first edge at a target path, as its target derives it. -/
def incomingEdge (g : ContextGraph) (path : NodePath) (localPath : Path) : Option Edge :=
  (g.edges.find? fun edge => decide (g.resolveExisting edge.target = some (path, localPath))).map
    g.ownLink

/-- `_would_cycle`: does `target` reach `source` along the edges? -/
def wouldCycle (g : ContextGraph) (source target : NodePath) : Bool :=
  Reach.reaches (g.edges.filterMap g.edgeNodes) target source

/-- `_remove_edges_targeting`. -/
def removeEdgesTargeting (g : ContextGraph) (path : NodePath) (localPath : Path)
    (descendants : Bool) : ContextGraph :=
  { g with edges := g.edges.filter fun edge =>
      match g.resolveExisting edge.target with
      | none => true
      | some (targetNode, targetLocal) =>
        !(decide (targetNode = path) &&
          (if descendants then decide (targetLocal.take localPath.length = localPath)
           else decide (targetLocal = localPath))) }

/-- `_replace_edges_to`: drop every edge into a node. -/
def replaceEdgesTo (g : ContextGraph) (path : NodePath) : ContextGraph :=
  { g with edges := g.edges.filter fun edge =>
      !decide ((g.resolveExisting edge.target).map Prod.fst = some path) }

/-- Replace the record of an existing node. -/
def updateNode (g : ContextGraph) (path : NodePath) (f : Node → Node) : ContextGraph :=
  match g.nodes.lookup path with
  | some node => { g with nodes := g.nodes.insert path (f node) }
  | none => g

/-- Put a node at a path. -/
def putNode (g : ContextGraph) (path : NodePath) (node : Node) : ContextGraph :=
  { g with nodes := g.nodes.insert path node }

end ContextGraph

/-- `deep_recipe_error`: the error of a deep link outside the deep tables. -/
def deepRecipeError (env : Substrate) (rootType : Celltype) (localPath : Path)
    (conversionSteps : List ConversionStep) : Option Error :=
  let stepError := match splitDeepStep rootType localPath conversionSteps with
    | some deep => env.shapeError (localPath.take 1) deep.deep deep.member
    | none => none
  match stepError with
  | some e => some e
  | none => conversionError (sortedSteps conversionSteps) rootType 0
where
  /-- The loop over the conversions: those from or into a deep celltype must be legal. -/
  conversionError : List ConversionStep → Celltype → Nat → Option Error
    | [], _, _ => none
    | (stepPosition, converted) :: steps, current, position =>
      let next := min (max stepPosition.toNat position) localPath.length
      let current := projectedCelltype current ((localPath.take next).drop position)
      let error := if converted ≠ current && (current.isDeep || converted.isDeep) then
          env.shapeError [] current converted
        else none
      match error with
      | some e => some e
      | none => conversionError steps converted next

end SeamlessWorkflow
