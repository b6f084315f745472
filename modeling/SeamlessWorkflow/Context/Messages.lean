import SeamlessWorkflow.Context.Namespace

/-!
# Messages and attachments

The turns that do not come from a caller: what runs and evaluations deliver, the expiry of
superseded runs, and what file mounts and shares sense. The replacement of the whole graph and the
end of the Context are here too.
-/

namespace SeamlessWorkflow

/-! ## Runs -/

/-- A run record with what the run has delivered. -/
def RunRecord.deliver (record : RunRecord) (identity result : Option Checksum)
    (error : Option Error) : RunRecord :=
  { record with
    identityChecksum := identity.orElse fun _ => record.identityChecksum
    resultChecksum := result
    error := error
    phase := if record.phase = .superseded then .superseded else .completed }

namespace Ctx

/-- `_find_run`. -/
def findRun (ctx : Ctx) (path : NodePath) (generation : Nat) : Option RunRecord :=
  match (ctx.runtime.currentRuns.lookup path).filter fun r => decide (r.generation = generation) with
  | some record => some record
  | none => (ctx.runtime.queue path).find? fun record =>
      decide (record.generation = generation) && decide (record.phase ≠ .cancelled)

/-- Change the record that `_find_run` finds. -/
def updateRun (path : NodePath) (generation : Nat) (f : RunRecord → RunRecord) (ctx : Ctx) : Ctx :=
  match (ctx.runtime.currentRuns.lookup path).filter fun r => decide (r.generation = generation) with
  | some record => (ctx.setCurrentRun path (f record)).unsettle
  | none =>
    match ctx.runtime.supersededRuns.lookup path with
    | none => ctx
    | some queue =>
      let queue := queue.map fun (record : RunRecord) =>
        if record.generation = generation ∧ record.phase ≠ .cancelled then f record else record
      { ctx with runtime := { ctx.runtime with
          supersededRuns := ctx.runtime.supersededRuns.insert path queue } }.unsettle

end Ctx

/-- `_transformation_started`. -/
def transformationStarted (env : Substrate) (path : NodePath) (generation : Nat)
    (identity : Checksum) : M Unit := do
  let ctx ← get
  onlyIf (ctx.findRun path generation).isSome do
    modify (·.updateRun path generation fun record =>
      { record with identityChecksum := some identity })
    deriveAll env

/-- `_transformation_finished`. -/
def transformationFinished (env : Substrate) (path : NodePath) (generation : Nat)
    (identity result : Option Checksum) (error : Option Error) : M Unit := do
  let ctx ← get
  onlyIf (!ctx.closing ∧ (ctx.findRun path generation).isSome) do
    modify (·.updateRun path generation fun record => record.deliver identity result error)
    modify Ctx.syncSupersededRefholds
    deriveAll env

/-- `_expire_run`. -/
def expireRun (path : NodePath) (generation : Nat) : M Unit :=
  modify fun ctx => (ctx.dropQueued path fun record =>
    decide (record.generation = generation) &&
      record.holdDeadline.any fun deadline => decide (deadline ≤ ctx.now)).syncSupersededRefholds

/-- `_downstream_cone`, with the node itself. -/
def ContextGraph.downstreamCone (g : ContextGraph) (path : NodePath) : List NodePath :=
  g.nodes.keys.filter fun target => Reach.reaches (g.edges.filterMap g.edgeNodes) path target

/-- Drop the superseded runs of the selected nodes, cancelling them. -/
def Ctx.pruneRuns (selected : NodePath → Bool) (ctx : Ctx) : Ctx :=
  let records := (ctx.runtime.supersededRuns.entries.filter fun entry => selected entry.1).flatMap
    fun entry => entry.2
  { ctx with runtime := ctx.runtime.prune selected }.cancelRuns records

/-- The nodes that `prune` selects: all, or a node and what lies downstream of it. -/
def ContextGraph.pruned (g : ContextGraph) (path : Option NodePath) (p : NodePath) : Bool :=
  match path with
  | none => true
  | some path => decide (p = path) || (g.downstreamCone path).contains p

/-- `prune`. -/
def prune (path : Option NodePath) : M Unit :=
  modify fun ctx => (ctx.pruneRuns (ctx.graph.pruned path)).syncSupersededRefholds

/-- The errors that `_clear_exception` looks for. -/
def Node.errors (node : Node) : List Error :=
  node.exception.toList ++ match node.body with
    | .cell _ => []
    | .transformer fields => fields.pinStates.entries.filterMap fun entry => entry.2.error

/-- Forget the facts that failed with one of these errors. -/
def Ctx.forgetFailures (errors : List Error) (ctx : Ctx) : Ctx :=
  let cleared := ctx.facts.keys.filter fun key =>
    match ctx.facts.lookup key with
    | some (.failure e) => errors.contains e
    | _ => false
  { ctx with facts := cleared.foldl (fun facts key => facts.erase key) ctx.facts }.unsettle

/-- Drop the current run of a node. -/
def Ctx.dropCurrentRun (path : NodePath) (ctx : Ctx) : Ctx :=
  let current := (ctx.runtime.currentRuns.lookup path).toList
  ({ ctx with
    runtime := { ctx.runtime with currentRuns := ctx.runtime.currentRuns.erase path }
  }.cancelRuns current).unsettle

/-- `_clear_exception`. -/
def clearException (env : Substrate) (path : NodePath) : M Unit := do
  let ctx ← get
  onlyIf (!(ctx.sessionsFor path).any fun session => session.senseError.isSome) do
    let node ← nodeAt path
    modify (·.setDerived path (Node.mapTransformer fun fields => { fields with pinReadErrors := ∅ }))
    onlyIf (node.errors ≠ []) do
      modify (·.forgetFailures node.errors)
      modify (·.dropCurrentRun path)
      modifyNode path fun node => { node with exception := none }
      deriveAll env

/-- `_accept_fact`. -/
def acceptFact (env : Substrate) (key : FactKey) (value : FactValue) : M Unit := do
  let ctx ← get
  onlyIf (!ctx.closing ∧ ctx.jobs.contains key) do
    modify fun ctx =>
      { ctx with facts := ctx.facts.insert key value, jobs := ctx.jobs.filter (· ≠ key) }.unsettle
    deriveAll env

/-! ## Attachments -/

/-- What is attached to a cell. -/
inductive Attachment
  | file (spec : AttachmentSpec)
  | share (spec : ShareSpec)
  | widget (driver : String) (senses : Bool)
  deriving DecidableEq, Repr

namespace Attachment

def driver : Attachment → String
  | .file _ => "file"
  | .share _ => "share"
  | .widget driver _ => driver

def senses : Attachment → Bool
  | .file spec => spec.senses
  | .share spec => spec.senses
  | .widget _ senses => senses

/-- Is the place of the attachment taken on the node? -/
def occupied (attachment : Attachment) (node : Node) : Bool :=
  match attachment with
  | .file _ => node.mount.isSome
  | .share _ => node.share.isSome
  | .widget driver _ => node.widgets.any fun entry => decide (entry.1 = driver)

def record (attachment : Attachment) (node : Node) : Node :=
  match attachment with
  | .file spec => { node with mount := some spec }
  | .share spec => { node with share := some spec }
  | .widget driver senses => { node with widgets := node.widgets ++ [(driver, senses)] }

end Attachment

/-- What a transport has observed, as the mount policy classifies it. -/
inductive Observation
  | sense (checksum : Checksum)
  | senseNull
  | senseNullError
  | senseError (reason : String)
  | clearError
  | nothing
  deriving DecidableEq, Repr

/-- `_mount_sense` and `_mount_sense_null`. -/
def mountSense (env : Substrate) (path : NodePath) (checksum : Checksum) : M Unit := do
  validateWrite path [] false
  let fields ← cellAt path
  setCellRoot env path (some checksum) fields.config.celltype false

/-- Change the session of an attachment. -/
def Ctx.updateSession (path : NodePath) (driver : String) (f : MountSession → MountSession)
    (ctx : Ctx) : Ctx :=
  match ctx.mountSessions.lookup (path, driver) with
  | none => ctx
  | some session => { ctx with
      settled := false, mountSessions := ctx.mountSessions.insert (path, driver) (f session) }

/-- `sense_error = MountError(reason)`. -/
def recordSenseError (path : NodePath) (driver reason : String) : M Unit := modify fun ctx =>
  ctx.updateSession path driver fun session =>
    { session with senseError := some ⟨.mountError, reason, ctx.nextIdent⟩ }

/-- Apply an observation to the node of a session. -/
def applyObservation (env : Substrate) (path : NodePath) (driver : String) (seen : Observation) :
    M Unit :=
  match seen with
  | .sense c => mountSense env path c
  | .senseNull => mountSense env path env.nullChecksum
  | .senseNullError => do
    mountSense env path env.nullChecksum
    recordSenseError path driver "Required file is missing"
  | .senseError reason => recordSenseError path driver reason
  | .clearError => modify (·.updateSession path driver fun session =>
      { session with senseError := none })
  | .nothing => pure ()

/-- The node of a mount: an existing cell. -/
def mountNode (path : NodePath) : M Node := do
  match ((← get).node? path).filter Node.isCell with
  | some node => pure node
  | none => raise .nodeError "Mounts require an existing whole cell node"

/-- `_mount_attach`. -/
def mountAttach (env : Substrate) (path : NodePath) (attachment : Attachment) (seen : Observation) :
    M Unit := do
  let node ← mountNode path
  let ctx ← get
  refuseIf (attachment.occupied node ∨
      (ctx.mountSessions.lookup (path, attachment.driver)).isSome) .valueError
    "Cell is already mounted; unmount first"
  refuseIf (attachment.senses ∧ ctx.graph.incomingFor path ≠ []) .authorityError
    "Sensing mount cannot have incoming edges; unmount first"
  refuseWith (env.attachmentError node.celltype attachment.driver)
  modifyNode path attachment.record
  let session : MountSession := { senses := attachment.senses }
  modify fun ctx =>
    { ctx with mountSessions := ctx.mountSessions.insert (path, attachment.driver) session }
  applyObservation env path attachment.driver seen
  deriveAll env

/-- `_mount_detach`. -/
def mountDetach (env : Substrate) (path : NodePath) (driver : String) : M Unit := do
  let ctx ← get
  onlyIf (ctx.mountSessions.lookup (path, driver)).isSome do
    modify (·.detach path driver)
    deriveAll env

/-- `_mount_observed`: an exception is recorded, not raised. -/
def mountObserved (env : Substrate) (path : NodePath) (driver : String) (seen : Observation) :
    M Unit := do
  let ctx ← get
  onlyIf (ctx.mountSessions.lookup (path, driver)).isSome
    (tryCatch (do
        applyObservation env path driver seen
        deriveAll env)
      fun _ => pure ())

/-- `_mount_after_turn`: sessions whose node is no longer a cell are detached. -/
def mountAfterTurn (env : Substrate) : M Unit := do
  let ctx ← get
  ctx.mountSessions.keys.forM fun key =>
    match (ctx.node? key.1).map Node.isCell with
    | some true => pure ()
    | _ => mountDetach env key.1 key.2

/-! ## The whole graph -/

/-- What a prepared graph claims, before it is installed. -/
def ContextGraph.preparedClaims (g : ContextGraph) : List Checksum :=
  g.nodes.entries.flatMap fun entry =>
    entry.2.producerChecksums ++
    match entry.2.transformerFields with
    | none => []
    | some fields => fields.config.codeChecksum.toList ++
        (moduleChecksums fields.config.modules).map Prod.snd

/-- New identities for the nodes of a prepared graph. -/
def ContextGraph.renumber (g : ContextGraph) (start : Nat) : ContextGraph :=
  g.nodes.keys.zipIdx start |>.foldl (fun g entry =>
    g.updateNode entry.1 fun node => { node with ident := entry.2 }) g

/-- The code of all transformers of a graph. -/
def ContextGraph.codeChecksums (g : ContextGraph) : AList (fun _ : NodePath => Checksum) :=
  g.nodes.entries.foldl (fun table entry =>
    match entry.2.transformerFields.bind fun fields => fields.config.codeChecksum with
    | some c => table.insert entry.1 c
    | none => table) ∅

/-- Cancel the runs of all nodes. -/
def Ctx.cancelAllRuns (ctx : Ctx) : Ctx :=
  ctx.cancelRuns ((ctx.runtime.currentRuns.entries.map fun entry => entry.2) ++
    ctx.runtime.supersededRuns.entries.flatMap fun entry => entry.2)

/-- End all attachment sessions. -/
def Ctx.detachSessions (ctx : Ctx) : Ctx :=
  ctx.mountSessions.keys.foldl (fun ctx key => ctx.detach key.1 key.2) ctx

/-- Publish a prepared graph, with an empty run ledger and the tables of its own references. -/
def Ctx.install (graph : ContextGraph) (ctx : Ctx) : Ctx :=
  { ctx.modifyGraph (fun _ => graph) with
    nextIdent := ctx.nextIdent + graph.nodes.keys.length
    runtime := { generation := ctx.runtime.generation }
    codeRefholds := graph.codeChecksums
    moduleRefholds := activeModules graph
    supersededRefholds := ∅
    revisions := graph.nodes.keys.foldl (fun table path =>
      table.insert path (ctx.revision path + 1)) ∅ }

/-- Replace the graph: what the new one claims is acquired before the old one is released. -/
def Ctx.replaceGraph (env : Substrate) (graph : ContextGraph) (ctx : Ctx) : Ctx :=
  let graph := graph.renumber ctx.nextIdent
  ((ctx.increfAll graph.preparedClaims).cancelAllRuns.detachSessions.releaseRefholds env).install
    graph

/-- `set_graph`, on a prepared graph. -/
def setGraph (env : Substrate) (graph : ContextGraph)
    (attachments : List (NodePath × Attachment × Observation)) : M Unit := do
  modify (·.replaceGraph env graph)
  deriveAll env
  attachments.forM fun entry => mountAttach env entry.1 entry.2.1 entry.2.2

/-- `close`: release everything and leave an empty Context. -/
def close (env : Substrate) : M Unit := modify fun ctx =>
  { ((ctx.detachSessions.releaseRefholds env).modifyGraph fun _ => {}) with
    runtime := { generation := ctx.runtime.generation }
    codeRefholds := ∅, moduleRefholds := ∅, supersededRefholds := ∅
    facts := ∅, jobs := [], effects := [], closing := true, poisoned := true }

end SeamlessWorkflow
