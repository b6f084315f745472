import SeamlessWorkflow.Graph.ContextGraph

/-!
# The graph document

`getGraph` writes a graph as a document, and `prepareGraph` reads a document into a graph or refuses
it. A path string of the document is represented by the path it spells.
-/

namespace SeamlessWorkflow

/-- The entry of a transformer. -/
structure TransformerEntry where
  language : String := "python"
  resultCelltype : Celltype := .mixed
  schema : Option String := none
  compilation : Option String := none
  objects : Option String := none
  header : Option String := none
  direct : Bool := false
  pins : List (String × Celltype) := []
  optionalPins : List String := []
  codeChecksum : Option Checksum := none
  code : Option String := none
  metadata : Meta := {}
  modules : List (String × ModuleValue) := []
  globals : String := ""
  environment : Option String := none
  scratch : Bool := false
  isLocal : Option Bool := none
  producers : List (String × ConstantProducer) := []
  deriving DecidableEq, Repr

inductive EntryBody
  | cell (config : CellConfig) (value : Option ConstantProducer)
  | transformer (entry : TransformerEntry)
  deriving DecidableEq, Repr

structure NodeEntry where
  path : NodePath
  body : EntryBody
  mount : Option AttachmentSpec := none
  share : Option ShareSpec := none
  deriving DecidableEq, Repr

/-- What an anonymous entry reads. -/
inductive SourceRef
  | node (path : NodePath)
  | symbol (name : String)
  deriving DecidableEq, Repr

structure AnonymousEntry where
  source : SourceRef
  celltype : Celltype
  path : Path
  deriving DecidableEq, Repr

/-- The source of a connection: a flattened path, or a reference with a path below it. -/
inductive ConnectionSource
  | flat (path : ViewPath)
  | node (path : NodePath) (sourcePath : Path) (steps : List ConversionStep)
  | symbol (name : String) (sourcePath : Path)
  deriving DecidableEq, Repr

structure ConnectionEntry where
  source : ConnectionSource
  target : ViewPath
  deepMember : Bool := false
  deriving DecidableEq, Repr

structure Document where
  version : String := "0.6"
  nodes : List NodeEntry := []
  anonymousNodes : List (String × AnonymousEntry) := []
  connections : List ConnectionEntry := []
  deriving DecidableEq, Repr

/-! ## Reading -/

/-- `if c: raise …`. -/
def rejectIf (c : Prop) [Decidable c] (kind : ErrorKind) (text : String) : Except Error Unit :=
  if c then throw ⟨kind, text, 0⟩ else pure ()

/-- The configuration that a transformer entry describes. -/
def TransformerEntry.config (env : Substrate) (entry : TransformerEntry) :
    Except Error TransformerConfig := do
  let config : TransformerConfig :=
    { schema := entry.schema, compilation := entry.compilation, objects := entry.objects
      header := entry.header
      code := match entry.code with
        | some text => some (.buffer text)
        | none => entry.codeChecksum.map .checksum
      codeChecksum := entry.codeChecksum.orElse fun _ =>
        entry.code.map fun text => env.bufferChecksum text entry.language
      language := entry.language
      pins := entry.pins.map Prod.fst
      celltypes := Dict.setItem "result" entry.resultCelltype entry.pins
      optionalPins := entry.optionalPins, modules := entry.modules, globals := entry.globals
      metadata := entry.metadata, environment := entry.environment, scratch := entry.scratch
      isLocal := entry.isLocal, direct := entry.direct }
  if config.compilation.isNone then return env.withToken config
  if config.optionalPins ≠ [] then
    throw ⟨.typeError, "compiled inputs cannot be optional", 0⟩
  match env.signature config.schema with
  | none => return env.withToken { config with header := none }
  | some (pins, header) =>
    let config := { config with
      header := some header
      pins := pins
      celltypes := pins.map (fun pin => (pin, config.celltypeOf pin)) ++
        [("result", config.celltypeOf "result")] }
    match env.declarationsError config.schema config.celltypes with
    | some e => throw e
    | none => return env.withToken config

/-- The fields that an entry describes. -/
def EntryBody.prepare (env : Substrate) : EntryBody → Except Error NodeBody
  | .cell config value => pure (.cell { config := config, rootProducer := value })
  | .transformer entry => do
    let config ← entry.config env
    pure (.transformer
      { config := config
        pinProducers := entry.producers.foldl (fun table item => table.insert item.1 item.2) ∅ })

/-- The node that an entry describes. -/
def NodeEntry.node (env : Substrate) (entry : NodeEntry) : Except Error Node := do
  let body ← entry.body.prepare env
  return { ident := 0, body := body, mount := entry.mount, share := entry.share }

/-- The checks of `prepare_graph` on the attachments of an entry. -/
def checkAttachments (env : Substrate) (version : String) (node : Node) (urls : List String) :
    Except Error Unit := do
  rejectIf (node.mount.isSome ∧ !node.isCell) .pathError "Only cells may have mount specs"
  rejectIf (node.mount.isSome ∧ (env.attachmentError node.celltype "file").isSome) .pathError
    "Invalid mount spec"
  match node.share with
  | none => pure ()
  | some share => do
    rejectIf (version ≠ "0.6") .pathError "share entries require workflow graph version 0.6"
    rejectIf (!node.isCell ∨ (env.attachmentError node.celltype "share").isSome ∨
      urls.contains share.path) .pathError "Invalid share spec"

/-- The loop of `prepare_graph` over the node entries. -/
def prepareNodes (env : Substrate) (version : String) :
    List NodeEntry → List String → ContextGraph → Except Error ContextGraph
  | [], _, g => pure g
  | entry :: entries, urls, g => do
    rejectIf (entry.path = [] ∨ entry.path ∈ g.nodes) .pathError "Duplicate or empty node path"
    let node ← entry.node env
    rejectIf (entry.path = [.key "mounts"]) .pathError "mounts is a reserved Context API name"
    rejectIf (entry.path.head? = some (.key "shares")) .pathError
      "shares is a reserved Context API name"
    checkAttachments env version node urls
    prepareNodes env version entries (urls ++ (node.share.map ShareSpec.path).toList)
      (g.putNode entry.path node)

/-- A resolved anonymous entry: the node it reads, the path and the conversions up to it, its
celltype, and the recipes of its chain. -/
structure ResolvedAnonymous where
  node : NodePath
  path : Path
  celltype : Celltype
  steps : List ConversionStep
  chain : List Recipe
  deriving DecidableEq, Repr

/-- One anonymous link on top of a resolved one. -/
def ResolvedAnonymous.extend (below : ResolvedAnonymous) (source : RecipeSource)
    (entry : AnonymousEntry) : ResolvedAnonymous :=
  let path := below.path ++ entry.path
  { node := below.node, path := path, celltype := entry.celltype
    steps := if entry.path = [] ∧ entry.celltype ≠ below.celltype then
        below.steps ++ [((path.length : Int), entry.celltype)]
      else below.steps
    chain := below.chain ++ [⟨source, entry.celltype, entry.path⟩] }

/-- `resolve_anonymous_node`. The entries on the way are kept, so that a cycle is refused; there are
no more of them than entries. -/
def resolveAnonymous (g : ContextGraph) (entries : List (String × AnonymousEntry)) :
    Nat → List String → String → Except Error ResolvedAnonymous
  | 0, _, _ => throw ⟨.dependencyError, "Anonymous node cycle", 0⟩
  | fuel + 1, resolving, symbol => do
    rejectIf (resolving.contains symbol) .dependencyError "Anonymous node cycle"
    match entries.lookup symbol with
    | none => throw ⟨.pathError, "Unknown anonymous node symbol", 0⟩
    | some entry =>
      match entry.source with
      | .node path =>
        return ResolvedAnonymous.extend ⟨path, [], g.nodeCelltype path, [], []⟩ (.node path) entry
      | .symbol name => do
        let below ← resolveAnonymous g entries fuel (symbol :: resolving) name
        return below.extend (.symbol name) entry

/-- `resolve_anonymous_node` on a whole document. -/
def Document.anonymous (doc : Document) (g : ContextGraph) (symbol : String) :
    Except Error ResolvedAnonymous :=
  resolveAnonymous g doc.anonymousNodes (doc.anonymousNodes.length + 1) [] symbol

/-- Is a text a symbol, `[0-9a-f]{5}(?:-[1-9][0-9]*)?`? -/
def isSymbol (text : String) : Bool :=
  let isHex (c : Char) : Bool := c.isDigit || (decide ('a' ≤ c) && decide (c ≤ 'f'))
  let chars := text.toList
  (chars.take 5).length = 5 && (chars.take 5).all isHex &&
    match chars.drop 5 with
    | [] => true
    | '-' :: d :: digits => d.isDigit && d ≠ '0' && digits.all Char.isDigit
    | _ => false

/-- The checks on one anonymous entry. -/
def checkAnonymous (g : ContextGraph) (entry : String × AnonymousEntry) : Except Error Unit := do
  rejectIf (!isSymbol entry.1) .pathError "Invalid anonymous node symbol"
  match entry.2.source with
  | .node path => rejectIf (path ∉ g.nodes) .pathError "Anonymous node source does not exist"
  | .symbol _ => pure ()

/-- The recipe of an anonymous entry. -/
def AnonymousEntry.recipe (entry : AnonymousEntry) : Recipe :=
  ⟨match entry.source with
    | .node path => .node path
    | .symbol name => .symbol name, entry.celltype, entry.path⟩

/-- The checks on the anonymous entries, and the symbols they assign. -/
def prepareAnonymous (doc : Document) (g : ContextGraph) : Except Error ContextGraph := do
  rejectIf (doc.version ≠ "0.5" ∧ doc.version ≠ "0.6" ∧ doc.anonymousNodes ≠ []) .pathError
    "anonymous_nodes require workflow graph version 0.5"
  doc.anonymousNodes.forM fun entry => checkAnonymous g entry
  doc.anonymousNodes.forM fun entry => discard (doc.anonymous g entry.1)
  return { g with symbols := doc.anonymousNodes.foldl (fun symbols entry =>
    symbols.insert entry.2.recipe entry.1) g.symbols }

/-- The edge of a connection, before it is checked. -/
def connectionEdge (doc : Document) (g : ContextGraph) (entry : ConnectionEntry) :
    Except Error Edge := do
  let targetPlace := g.placeOf entry.target
  let targetFlat := g.placeOf_flat entry.target
  let before (steps : List ConversionStep) : Bool := steps.head?.any fun step => decide (step.1 = 0)
  match entry.source with
  | .flat path =>
    return { source := path, target := entry.target, sourcePlace := g.placeOf path, targetPlace
             sourceFlat := g.placeOf_flat path, targetFlat }
  | .node path sourcePath steps =>
    let place : Place := ⟨path, sourcePath⟩
    if steps = [] then
      return { source := place.flat, target := entry.target, sourcePlace := place, targetPlace
               targetFlat }
    else
      return { source := place.flat, target := entry.target
               sourceCelltype := steps.getLast?.map Prod.snd, sourceConversion := true
               sourceConversionBefore := before steps, sourceConversionSteps := steps
               sourcePlace := place, targetPlace, targetFlat }
  | .symbol name sourcePath => do
    let resolved ← doc.anonymous g name
    let celltype := projectedCelltype resolved.celltype sourcePath
    let place : Place := ⟨resolved.node, resolved.path ++ sourcePath⟩
    let chain := if sourcePath = [] then resolved.chain
      else resolved.chain ++ [⟨.symbol name, celltype, sourcePath⟩]
    return { source := place.flat, target := entry.target, sourceCelltype := some celltype
             sourceConversion := resolved.steps ≠ []
             sourceConversionBefore := resolved.steps ≠ [] && before resolved.steps
             sourceConversionSteps := resolved.steps, sourceChain := chain
             sourcePlace := place, targetPlace, targetFlat }

/-- The checks of `prepare_graph` on one connection. -/
def checkConnection (g : ContextGraph) (edge : Edge) : Except Error Edge := do
  match g.resolveExisting edge.source, g.resolveExisting edge.target with
  | some _, some (targetNode, targetLocal) =>
    match g.nodes.lookup targetNode with
    | none => throw ⟨.pathError, "Connection endpoint does not exist", 0⟩
    | some node => do
      rejectIf ((node.mount.map AttachmentSpec.senses).getD false) .pathError
        "Sensing mounts cannot have incoming connections"
      rejectIf ((node.share.map ShareSpec.senses).getD false) .pathError
        "Invalid share spec: a writable share cannot have incoming connections"
      rejectIf (node.isCell ∧ (1 < targetLocal.length ∨ targetLocal.any Component.isSlice)) .pathError
        "Cell graph targets are limited to root or one point component"
      rejectIf (!node.isCell ∧ targetLocal.length ≠ 1) .pathError
        "Transformer graph targets must address one whole pin"
      rejectIf (g.edges.any fun other => decide (other.target = edge.target)) .dependencyError
        "Multiple producers"
      return { edge with deepMember := edge.deepMember ||
        (targetLocal ≠ [] && node.isCell && node.celltype.isDeep) }
  | _, _ => throw ⟨.pathError, "Connection endpoint does not exist", 0⟩

/-- The loop of `prepare_graph` over the connections. -/
def prepareConnections (doc : Document) :
    List ConnectionEntry → ContextGraph → Except Error ContextGraph
  | [], g => pure g
  | entry :: entries, g => do
    let edge ← connectionEdge doc g entry
    let edge ← checkConnection g { edge with deepMember := entry.deepMember }
    prepareConnections doc entries { g with edges := g.edges ++ [edge] }

/-- Assign the symbols of the anonymous links, in the order of the edges. -/
def registerSymbols (env : Substrate) : List Edge → ContextGraph → Except Error ContextGraph
  | [], g => pure g
  | edge :: edges, g =>
    match g.registerEdgeSymbols env edge with
    | none => throw ⟨.keyError, "source", 0⟩
    | some (edge, g) => registerSymbols env edges { g with edges := g.edges ++ [edge] }

/-- Is there a dependency cycle? -/
def ContextGraph.cyclic (g : ContextGraph) : Bool :=
  let dependencies := g.edges.filterMap g.edgeNodes
  dependencies.any fun edge => Reach.reaches dependencies edge.2 edge.1

/-- `prepare_graph`. -/
def prepareGraph (env : Substrate) (doc : Document) : Except Error ContextGraph := do
  rejectIf (! ["0.2", "0.3", "0.4", "0.5", "0.6"].contains doc.version) .pathError
    "Unsupported workflow graph version"
  let g ← prepareNodes env doc.version doc.nodes [] {}
  let g ← prepareAnonymous doc g
  let g ← prepareConnections doc doc.connections g
  let g ← registerSymbols env g.edges { g with edges := [] }
  rejectIf g.cyclic .dependencyError "Dependency cycle"
  return g

/-! ## Writing -/

/-- The entry of a node. -/
def nodeEntry (path : NodePath) (node : Node) : NodeEntry :=
  { path := path
    body := match node.body with
      | .cell fields => .cell fields.config fields.rootProducer
      | .transformer fields =>
        let config := fields.config
        .transformer
          { language := config.language, resultCelltype := config.celltypeOf "result"
            schema := config.schema, compilation := config.compilation, objects := config.objects
            header := config.header, direct := config.direct
            pins := (config.pins.insertionSort fun a b => decide (a ≤ b)).map fun pin =>
              (pin, config.celltypeOf pin)
            optionalPins := config.optionalPins.insertionSort fun a b => decide (a ≤ b)
            codeChecksum := config.codeChecksum
            code := match config.code with
              | some (.buffer text) => some text
              | _ => none
            metadata := config.metadata, modules := config.modules, globals := config.globals
            environment := config.environment, scratch := config.scratch, isLocal := config.isLocal
            producers := (fields.pinProducers.entries.map fun entry =>
              (entry.1, entry.2)).insertionSort fun a b => decide (a.1 ≤ b.1) }
    mount := node.mount
    share := if node.isCell then node.share else none }

/-- The order of two edges: by source, then by target. -/
def Edge.comparable (a b : Edge) : Bool :=
  if a.source = b.source then a.target.comparable b.target else a.source.comparable b.source

def Edge.le (a b : Edge) : Bool :=
  if a.source = b.source then a.target.le b.target else a.source.le b.source

/-- `sorted` on the edges: `TypeError` when two of them do not compare. -/
def sortEdges (edges : List Edge) : Option (List Edge) :=
  if edges.all fun a => edges.all fun b => a.comparable b then
    some (edges.insertionSort fun a b => a.le b)
  else none

/-- `symbol_of`. -/
def symbolOf (g : ContextGraph) (recipe : Recipe) : Except Error String :=
  match g.symbols.lookup recipe with
  | some symbol => .ok symbol
  | none => .error ⟨.runtimeError, "anonymous recipe has no symbol", 0⟩

/-- `add_anonymous_chain`: the entries of a chain, and the symbol of its last link. -/
def anonymousChain (g : ContextGraph) :
    List Recipe → List (String × AnonymousEntry) → Option String →
      Except Error (List (String × AnonymousEntry) × Option String)
  | [], entries, last => pure (entries, last)
  | recipe :: chain, entries, _ => do
    let symbol ← symbolOf g recipe
    let source := match recipe.source with
      | .node path => SourceRef.node path
      | .symbol name => SourceRef.symbol name
    anonymousChain g chain
      (Dict.setItem symbol ⟨source, recipe.celltype, recipe.path⟩ entries) (some symbol)

/-- The source of the connection of an edge that reads a named node directly. -/
def directSource (g : ContextGraph) (edge : Edge) : Except Error ConnectionSource :=
  match g.resolveExisting edge.target, g.resolveExisting edge.source with
  | some (targetNode, _), some (sourceNode, sourceLocal) =>
    if ((g.nodes.lookup targetNode).map Node.isCell).getD false then
      let stored := ((g.nodes.lookup sourceNode).bind Node.cellFields).bind CellFields.rootProducer
      if sourceLocal ≠ [] ∨ stored.isSome then .ok (.flat (sourceNode ++ sourceLocal))
      else .ok (.node sourceNode [] [])
    else .ok (.flat edge.source)
  | _, _ => .error ⟨.keyError, "edge", 0⟩

/-- The loop of `_graph_connections`. -/
def graphConnections (g : ContextGraph) :
    List Edge → List (String × AnonymousEntry) →
      Except Error (List ConnectionEntry × List (String × AnonymousEntry))
  | [], entries => pure ([], entries)
  | edge :: edges, entries => do
    match g.resolveExisting edge.source with
    | none => throw ⟨.keyError, "edge", 0⟩
    | some (_, sourceLocal) =>
      if edge.sourceConversion ∨ sourceLocal ≠ [] then
        if edge.sourceChain = [] then
          throw ⟨.runtimeError, "edge was added without register_edge_symbols()", 0⟩
        for recipe in edge.sourceChain do
          let _ ← symbolOf g recipe
      let (source, entries) ←
        if edge.sourceChain = [] || g.collapsesOnSave edge then do
          let source ← directSource g edge
          pure (source, entries)
        else do
          let (entries, symbol) ← anonymousChain g edge.sourceChain entries none
          pure (ConnectionSource.symbol (symbol.getD "") [], entries)
      let (connections, entries) ← graphConnections g edges entries
      pure (⟨source, edge.target, edge.deepMember⟩ :: connections, entries)

/-- `get_graph`. -/
def getGraph (g : ContextGraph) : Except Error Document := do
  match sortPaths g.nodes.keys, sortEdges g.edges with
  | some paths, some edges =>
    let nodes := paths.filterMap fun path => (g.nodes.lookup path).map (nodeEntry path)
    let (connections, entries) ← graphConnections g edges []
    return { nodes := nodes, connections := connections
             anonymousNodes := entries.insertionSort fun a b => decide (a.1 ≤ b.1) }
  | _, _ => throw ⟨.typeError, "'<' not supported between instances of 'int' and 'str'", 0⟩

end SeamlessWorkflow
