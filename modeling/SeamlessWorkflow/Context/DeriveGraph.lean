import SeamlessWorkflow.Context.DeriveCell
import SeamlessWorkflow.Context.DeriveTransformer
import SeamlessWorkflow.Library.PostOrder
import SeamlessWorkflow.Library.Search

/-!
# The derivation of the graph

`deriveGraph` visits the nodes with their sources first, writes the outcome of each node, moves the
run ledger along, and then brings the tables of held references up to date.
-/

namespace SeamlessWorkflow

namespace ContextGraph

/-- The source nodes of a node, in the order of its incoming edges. -/
def sources (g : ContextGraph) (path : NodePath) : List NodePath :=
  (g.incomingFor path).filterMap fun entry => (g.resolveExisting entry.2.source).map Prod.fst

/-- The order in which `_derive_graph` derives the nodes. -/
def derivationOrder (g : ContextGraph) (sorted : List NodePath) : List NodePath :=
  PostOrder.order g.sources sorted

/-- How an edge passes a result on to its target. -/
inductive HolderStep
  | holds (target : NodePath)
  | passes (target : NodePath)
  | stops
  /-- `local[0]` of an edge that ends at a transformer itself. -/
  | raises
  deriving DecidableEq, Repr

/-- The celltype of an unprojected source after the conversions of an edge, as long as every one of
them preserves the checksum. -/
def preservedType (env : Substrate) (sourceType : Celltype) (edge : Edge) : Option Celltype :=
  let steps :=
    if edge.sourceConversion && decide (edge.sourceConversionSteps = []) then
      [edge.sourceCelltype.getD sourceType]
    else edge.sourceConversionSteps.map Prod.snd
  steps.foldl (fun current converted =>
    match current with
    | none => none
    | some current =>
      if current = converted || env.preserving current converted then some converted else none)
    (some sourceType)

/-- One edge of the walk of `_feeds_non_scratch_holder`. -/
def holderStep (env : Substrate) (g : ContextGraph) (edge : Edge) : HolderStep :=
  match g.resolveExisting edge.source, g.resolveExisting edge.target with
  | some (source, []), some (target, targetLocal) =>
    match preservedType env (g.nodeCelltype source) edge, g.nodes.lookup target with
    | some output, some node =>
      let accepts (celltype : Celltype) : Bool :=
        decide (output = celltype) || env.preserving output celltype
      match node.body with
      | .transformer fields =>
        match targetLocal with
        | [] => .raises
        | component :: _ =>
          let pinType := match component with
            | .key name => fields.config.celltypeOf name
            | _ => .mixed
          if accepts pinType && !edgeTargetScratch node then .holds target else .stops
      | .cell fields =>
        if targetLocal ≠ [] || !accepts fields.config.celltype then .stops
        else if fields.config.scratch then .passes target else .holds target
    | _, _ => .stops
  | _, _ => .stops

/-- What the walk finds at an edge, when it has come to a node. -/
def holderFind (env : Substrate) (g : ContextGraph) (current : NodePath) (edge : Edge) :
    Search.Find NodePath (Option Bool) :=
  match g.resolveExisting edge.source, g.holderStep env edge with
  | some (source, _), step =>
    if source ≠ current then .nothing
    else match step with
      | .holds _ => .answer (some true)
      | .passes target => .vertex target
      | .stops => .nothing
      | .raises => .answer none
  | none, _ => .nothing

/-- `_feeds_non_scratch_holder`: does a result reach a holder that is not scratch unchanged? There is no
answer where the walk raises an `IndexError`. -/
def feedsNonScratchHolder (env : Substrate) (g : ContextGraph) (path : NodePath) : Option Bool :=
  (Search.searchFrom (fun current => g.edges.map (g.holderFind env current)) (g.edges.length + 1)
    path).getD (some false)

end ContextGraph

namespace Ctx

def view (ctx : Ctx) : View := ⟨ctx.graph, ctx.facts⟩

/-! ## What an evaluation reports -/

/-- A demanded fact is used, and a job is started when it is neither known nor under way. -/
def noteFact (key : FactKey) (ctx : Ctx) : Ctx :=
  let ctx := { ctx with usedFacts := ctx.usedFacts ++ [key] }
  if (ctx.facts.lookup key).isSome || ctx.jobs.contains key then ctx
  else { ctx with jobs := ctx.jobs ++ [key] }.addEffect (.launchJob key)

/-- The result of an anonymous link is held under its symbol. -/
def noteAnonymous (env : Substrate) (entry : Recipe × Checksum) (ctx : Ctx) : Ctx :=
  let (symbol, graph) := ctx.graph.assignSymbol env entry.1
  { ctx with
    graph := graph
    anonymousCurrentUpdates := ctx.anonymousCurrentUpdates.insert symbol entry.2 }

/-- The code that an edge delivers to a transformer. -/
def noteEdgeCode (path : NodePath) (code : Option Checksum) (ctx : Ctx) : Ctx :=
  match code with
  | some code => { ctx with edgeCodeStates := ctx.edgeCodeStates.insert path code }
  | none => ctx

/-- Take over what an evaluation reports. -/
def report {α : Type} (env : Substrate) (x : Evaluated α) (ctx : Ctx) : Ctx :=
  let ctx := x.used.foldl (fun ctx key => ctx.noteFact key) ctx
  x.anonymous.foldl (fun ctx entry => ctx.noteAnonymous env entry) ctx

/-! ## The run ledger -/

/-- `_upstream_unresolved`. -/
def upstreamUnresolved (ctx : Ctx) (path : NodePath) : Bool :=
  (ctx.graph.sources path).any fun source =>
    match (ctx.node? source).map Node.state with
    | some .waiting | some .computing => true
    | _ => false

def cancelRuns (records : List RunRecord) (ctx : Ctx) : Ctx :=
  records.foldl (fun ctx record =>
    if record.launched then ctx.addEffect (.cancelRun record.generation) else ctx) ctx

/-- `_suspend`: supersede the current run of a node. -/
def suspend (path : NodePath) (ctx : Ctx) : Ctx :=
  match ctx.runtime.currentRuns.lookup path with
  | none => ctx
  | some current =>
    let kind := if ctx.upstreamUnresolved path then .upstream else .selfEdit
    let (runtime, evicted) := ctx.runtime.supersede path kind ctx.now
    ({ ctx with runtime := runtime }.addEffect (.expiryTimer path current.generation)).cancelRuns
      evicted

/-- Drop the selected records of a queue, cancelling their runs. -/
def dropQueued (path : NodePath) (dropped : RunRecord → Bool) (ctx : Ctx) : Ctx :=
  match ctx.runtime.supersededRuns.lookup path with
  | none => ctx
  | some queue =>
    { ctx with runtime := { ctx.runtime with
        supersededRuns := ctx.runtime.supersededRuns.insert path
          (queue.filter fun record => !dropped record) } }.cancelRuns (queue.filter dropped)

/-- `_release_upstream_holds`. -/
def releaseUpstreamHolds (path : NodePath) (keep : RunRecord → Bool) (ctx : Ctx) : Ctx :=
  ctx.dropQueued path fun record =>
    decide (record.holdKind = some .upstream) && decide (record.phase ≠ .cancelled) && !keep record

def setCurrentRun (path : NodePath) (record : RunRecord) (ctx : Ctx) : Ctx :=
  { ctx with runtime := { ctx.runtime with
      currentRuns := ctx.runtime.currentRuns.insert path record } }

/-- `_publish_run`: a node shows what its current run has delivered. -/
def publishRun (env : Substrate) (path : NodePath) (record : RunRecord) (ctx : Ctx) : Ctx :=
  let publish (state : NodeState) (exception : Option Error) (checksum : Option Checksum) : Ctx :=
    (ctx.replaceCurrentChecksum env path checksum).setDerived path fun node =>
      { node with state := state, blockReason := none, exception := exception }
  match record.error, record.resultChecksum with
  | some e, _ => publish .failed (some e) none
  | none, some c => publish .complete none (some c)
  | none, none => publish .computing none none

/-- Make a superseded run current again. What it had already delivered arrives once more, as a
message. -/
def reinstate (env : Substrate) (path : NodePath) (record : RunRecord) (ctx : Ctx) : Ctx :=
  let queue := (ctx.runtime.queue path).erase record
  let ctx := { ctx with runtime := { ctx.runtime with
    supersededRuns := ctx.runtime.supersededRuns.insert path queue } }
  let ctx := if record.resultChecksum.isSome || record.error.isSome then
      ctx.addEffect (.repost path record.generation record.identityChecksum record.resultChecksum
        record.error)
    else ctx
  let record := { record with
    resultChecksum := none, error := none, phase := .running, holdDeadline := none, holdKind := none }
  (ctx.setCurrentRun path record).publishRun env path record

/-- Start a new run for a demand. -/
def launch (env : Substrate) (path : NodePath) (node : Node) (key : DemandKey) (ctx : Ctx) : Ctx :=
  let generation := ctx.runtime.generation + 1
  let record : RunRecord :=
    { nodePath := path, launched := true, phase := .running, generation := generation
      demandKey := some key
      dispatchScratch := some (node.scratch && ctx.graph.feedsNonScratchHolder env path ≠ some true) }
  let ctx := { ctx with runtime := { ctx.runtime with generation := generation } }
  let ctx := (ctx.setCurrentRun path record).replaceCurrentChecksum env path none
  let ctx := ctx.setDerived path fun node =>
    { node with state := .computing, blockReason := none, exception := none }
  ctx.addEffect (.launchRun path generation key node.ident)

/-- Is a scratch result wanted by a holder although its buffer is gone? -/
def forcesValueRun (env : Substrate) (path : NodePath) (current : RunRecord) (ctx : Ctx) : Bool :=
  match current.resultChecksum with
  | none => false
  | some result =>
    decide (current.dispatchScratch = some true) &&
      decide (ctx.graph.feedsNonScratchHolder env path = some true) && ctx.missing.contains result

/-- The second part of `_derive_transformer`, for a demand: show the current run, reinstate a
superseded one, or launch a new one. -/
def meetDemand (env : Substrate) (path : NodePath) (node : Node) (key : DemandKey) (ctx : Ctx) :
    Ctx :=
  let ctx := ctx.releaseUpstreamHolds path fun record => decide (record.demandKey = some key)
  let current := (ctx.runtime.currentRuns.lookup path).filter fun record =>
    decide (record.demandKey = some key)
  let shown := current.filter fun record => !ctx.forcesValueRun env path record
  match shown with
  | some record => ctx.publishRun env path record
  | none =>
    let ctx := ctx.suspend path
    let candidate := (ctx.runtime.queue path).find? fun record =>
      decide (record.demandKey = some key) && decide (record.phase ≠ .cancelled) &&
        decide (current.map RunRecord.generation ≠ some record.generation)
    match candidate with
    | some record => ctx.reinstate env path record
    | none => ctx.launch env path node key

/-! ## Nodes -/

/-- Write an outcome into a node. -/
def applyOutcome (env : Substrate) (path : NodePath) (outcome : Outcome) (ctx : Ctx) : Ctx :=
  (ctx.replaceCurrentChecksum env path outcome.checksum).setDerived path fun node =>
    { node with
      state := outcome.state
      blockReason := outcome.blockReason
      exception := outcome.exception.getD node.exception }

def deriveCell (env : Substrate) (path : NodePath) (fields : CellFields) (ctx : Ctx) : Ctx :=
  let senseErrors := (ctx.sessionsFor path).filterMap MountSession.senseError
  let outcome := cellOutcome env ctx.view senseErrors path fields
  (ctx.report env outcome).applyOutcome env path outcome.value

/-- Write what derivation found at the pins of a transformer. -/
def writePins (path : NodePath) (reading : TransformerReading)
    (blocked : List (Reason × String)) (ctx : Ctx) : Ctx :=
  ctx.setDerived path <| Node.mapTransformer fun fields =>
    { fields with
      pinStates := reading.pins.foldl (fun states entry =>
        states.insert entry.1 entry.2.state) ∅
      pinReadErrors := reading.pins.foldl (fun errors entry =>
        if entry.2.keepsReadError then errors else errors.erase entry.1) fields.pinReadErrors
      blockPins := sortPins (blocked.map Prod.snd)
      pinBlockReasons := blocked.foldl (fun reasons entry =>
        Dict.setItem entry.2 entry.1 reasons) [] }

/-- The demand of a transformer. -/
def demandKey (config : TransformerConfig) (code : Checksum) (pins : List (String × Checksum)) :
    DemandKey :=
  ⟨code, pins, config.configToken⟩

def deriveTransformer (env : Substrate) (path : NodePath) (node : Node) (fields : TransformerFields)
    (ctx : Ctx) : Ctx :=
  let evaluated := transformerReading env ctx.view path fields
  let reading := evaluated.value
  let ctx := (ctx.report env evaluated).noteEdgeCode path reading.edgeCode
  match reading.verdict with
  | .failed e =>
    ((ctx.writePins path reading []).suspend path).applyOutcome env path (.failed (some e))
  | .pending pending =>
    let reason := firstReason pending
    let state := reason.nodeState
    ((ctx.writePins path reading (pending.filter fun entry => decide (entry.1 ≠ .waiting))).suspend
        path).applyOutcome env path
      { state := state, blockReason := if state = .blocked then some (.one reason) else none }
  | .ready code pins =>
    (ctx.writePins path reading []).meetDemand env path node (demandKey fields.config code pins)

/-- Note that a node is derived from this state. -/
def noteDerivation (path : NodePath) (ctx : Ctx) : Ctx :=
  let derivation := ⟨path, ctx.view, (ctx.sessionsFor path).filterMap MountSession.senseError⟩
  { ctx with derivations := derivation :: ctx.derivations }

/-- `_derive_node`. -/
def deriveNode (env : Substrate) (ctx : Ctx) (path : NodePath) : Ctx :=
  let ctx := ctx.noteDerivation path
  match ctx.node? path with
  | none => ctx
  | some node =>
    match node.body with
    | .cell fields => ctx.deriveCell env path fields
    | .transformer fields => ctx.deriveTransformer env path node fields

/-- A new record for the checksum of a cell. -/
def startCellRun (path : NodePath) (node : Node) (checksum : Checksum) (ctx : Ctx) : Ctx :=
  match node.state with
  | .complete | .failed | .computing =>
    let generation := ctx.runtime.generation + 1
    let record : RunRecord :=
      { nodePath := path, identityChecksum := some checksum, resultChecksum := some checksum
        error := node.exception, generation := generation
        phase := if node.state = .computing then .running else .completed }
    { ctx with runtime := { ctx.runtime with generation := generation } }.setCurrentRun path record
  | _ => ctx

/-- `_update_runtime`: the run ledger of a cell follows its checksum. -/
def updateRuntime (ctx : Ctx) (path : NodePath) : Ctx :=
  match ctx.node? path with
  | none => ctx
  | some node =>
    if !node.isCell then ctx
    else match node.currentChecksum with
      | none => ctx.suspend path
      | some checksum =>
        let ctx := ctx.releaseUpstreamHolds path fun _ => false
        match ctx.runtime.currentRuns.lookup path with
        | some current =>
          if current.identityChecksum = some checksum then
            ctx.setCurrentRun path { current with resultChecksum := some checksum }
          else (ctx.suspend path).startCellRun path node checksum
        | none => ctx.startCellRun path node checksum

/-! ## The tables of held references -/

/-- Bring a table of held references to `wanted`: acquire what is new, then release what is gone. -/
def syncRefholds {κ ν : Type} [DecidableEq κ] [DecidableEq ν] (checksumOf : ν → Checksum)
    (old wanted : AList (fun _ : κ => ν)) (ctx : Ctx) : Ctx :=
  let acquired := wanted.entries.filter fun entry => decide (old.lookup entry.1 ≠ some entry.2)
  let released := old.entries.filter fun entry => decide (wanted.lookup entry.1 ≠ some entry.2)
  (ctx.increfAll (acquired.map fun entry => checksumOf entry.2)).decrefAll
    (released.map fun entry => checksumOf entry.2)

/-- The modules of all transformers. -/
def activeModules (g : ContextGraph) : AList (fun _ : NodePath × String => Checksum) :=
  g.nodes.entries.foldl (fun active entry =>
    match entry.2.transformerFields with
    | none => active
    | some fields => fields.config.modules.foldl (fun active item =>
        match item.2 with
        | .checksum c => active.insert (entry.1, item.1) c
        | .other _ => active) active) ∅

/-- `_sync_module_refholds`. -/
def syncModuleRefholds (ctx : Ctx) : Ctx :=
  let active := activeModules ctx.graph
  { ctx.syncRefholds id ctx.moduleRefholds active with moduleRefholds := active }

/-- The checksums that edges deliver to pins and code. -/
def wantedEdgePins (ctx : Ctx) : AList (fun _ : NodePath × String => Checksum × Bool) :=
  ctx.graph.nodes.entries.foldl (fun wanted entry =>
    match entry.2.transformerFields with
    | none => wanted
    | some fields =>
      let scratch := edgeTargetScratch entry.2
      let wanted := fields.pinStates.entries.foldl (fun wanted pin =>
        match pin.2.state, pin.2.checksum with
        | .complete, some c =>
          if (ctx.graph.incomingEdge entry.1 [.key pin.1]).isSome then
            wanted.insert (entry.1, pin.1) (c, scratch)
          else wanted
        | _, _ => wanted) wanted
      match ctx.edgeCodeStates.lookup entry.1 with
      | some code => wanted.insert (entry.1, "code") (code, scratch)
      | none => wanted) ∅

/-- `_sync_edge_pin_refholds`. -/
def syncEdgePinRefholds (ctx : Ctx) : Ctx :=
  let wanted := ctx.wantedEdgePins
  { ctx.syncRefholds Prod.fst ctx.edgePinRefholds wanted with edgePinRefholds := wanted }

/-- `_sync_anonymous_current_refholds`. -/
def syncAnonymousCurrentRefholds (ctx : Ctx) : Ctx :=
  { ctx.syncRefholds id ctx.anonymousCurrentRefholds ctx.anonymousCurrentUpdates with
    anonymousCurrentRefholds := ctx.anonymousCurrentUpdates }

/-- `_sync_superseded_refholds`: a record that stays keeps the reference it has. -/
def syncSupersededRefholds (ctx : Ctx) : Ctx :=
  let active := supersededResults ctx.runtime
  let gone := ctx.supersededRefholds.entries.filter fun entry =>
    !active.any fun item => decide (item.1 = entry.1)
  let ctx := gone.foldl (fun ctx entry =>
    { ctx.decref entry.2 with supersededRefholds := ctx.supersededRefholds.erase entry.1 }) ctx
  active.foldl (fun ctx item =>
    if (ctx.supersededRefholds.lookup item.1).isSome then ctx
    else { ctx.incref item.2 with
      supersededRefholds := ctx.supersededRefholds.insert item.1 item.2 }) ctx

/-- Drop the jobs and facts that no node demands any more. -/
def pruneFacts (ctx : Ctx) : Ctx :=
  let unused := ctx.jobs.filter fun key => !ctx.usedFacts.contains key
  let stale := ctx.facts.keys.filter fun key => !ctx.usedFacts.contains key
  let ctx := { ctx with
    jobs := ctx.jobs.filter fun key => ctx.usedFacts.contains key
    facts := stale.foldl (fun facts key => facts.erase key) ctx.facts }
  unused.foldl (fun ctx key => ctx.addEffect (.cancelJob key)) ctx

/-! ## The graph -/

/-- The first part of `_derive_graph`. -/
def beginDerivation (ctx : Ctx) : Ctx :=
  { ctx.syncModuleRefholds with
    anonymousCurrentUpdates := ∅, edgeCodeStates := ∅, usedFacts := [], settled := false }

/-- The rest of `_derive_graph` over the sorted node paths. -/
def deriveGraph (env : Substrate) (sorted : List NodePath) (ctx : Ctx) : Ctx :=
  let ctx := (ctx.graph.derivationOrder sorted).foldl (fun ctx path => ctx.deriveNode env path) ctx
  let ctx := ctx.syncEdgePinRefholds.syncAnonymousCurrentRefholds.pruneFacts
  let ctx := sorted.foldl (fun ctx path => ctx.updateRuntime path) ctx
  { ctx.syncSupersededRefholds with settled := true }

/-! ## Where the derivation raises -/

/-- The state in which the second part of `_derive_transformer` raises, when the search for a holder does:
the search is made for a scratch result that the current run has delivered, and at a launch. -/
def meetDemandRaises (env : Substrate) (path : NodePath) (node : Node) (key : DemandKey) (ctx : Ctx) :
    Option Ctx :=
  let ctx := ctx.releaseUpstreamHolds path fun record => decide (record.demandKey = some key)
  if ctx.graph.feedsNonScratchHolder env path ≠ none then none
  else match (ctx.runtime.currentRuns.lookup path).filter fun record =>
      decide (record.demandKey = some key) with
    | some record =>
      if record.resultChecksum.isSome && decide (record.dispatchScratch = some true) then some ctx
      else none
    | none =>
      let ctx := ctx.suspend path
      let candidate := (ctx.runtime.queue path).find? fun record =>
        decide (record.demandKey = some key) && decide (record.phase ≠ .cancelled)
      if candidate.isSome || !node.scratch then none
      else some
        { ctx with runtime := { ctx.runtime with generation := ctx.runtime.generation + 1 } }

/-- The state in which the derivation of a node raises, if it does. -/
def nodeRaises (env : Substrate) (ctx : Ctx) (path : NodePath) : Option Ctx :=
  let ctx := ctx.noteDerivation path
  match ctx.node? path with
  | none => none
  | some node =>
    match node.body with
    | .cell _ => none
    | .transformer fields =>
      let evaluated := transformerReading env ctx.view path fields
      let ctx := (ctx.report env evaluated).noteEdgeCode path evaluated.value.edgeCode
      match evaluated.value.verdict with
      | .ready code pins =>
        (ctx.writePins path evaluated.value []).meetDemandRaises env path node
          (demandKey fields.config code pins)
      | _ => none

/-- The state in which the derivation of the nodes in turn raises, if it does. -/
def nodesRaise (env : Substrate) : List NodePath → Ctx → Option Ctx
  | [], _ => none
  | path :: paths, ctx =>
    (ctx.nodeRaises env path).or (nodesRaise env paths (ctx.deriveNode env path))

/-- The state in which the derivation of the graph raises, if it does. -/
def graphRaises (env : Substrate) (sorted : List NodePath) (ctx : Ctx) : Option Ctx :=
  nodesRaise env (ctx.graph.derivationOrder sorted) ctx

/-- Does every edge that a node derives have a source node? -/
def sourcesResolve (g : ContextGraph) : Bool :=
  g.nodes.keys.all fun path =>
    (g.incomingFor path).all fun entry => (g.resolveExisting entry.2.source).isSome

end Ctx

end SeamlessWorkflow
