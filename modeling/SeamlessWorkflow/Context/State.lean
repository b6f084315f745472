import SeamlessWorkflow.Graph.ContextGraph
import Mathlib.Data.List.Dedup

/-!
# The state of a Context

The graph, the run ledger, the known facts, and the tables of the checksum references that the
Context holds for its graph roles.
-/

namespace SeamlessWorkflow

/-- The demand of a transformer: its code, its pins in name order, and its config token. -/
structure DemandKey where
  code : Checksum
  pins : List (String × Checksum)
  configToken : String
  deriving DecidableEq, Repr

inductive RunPhase
  | running | superseded | cancelled | completed
  deriving DecidableEq, Repr

inductive HoldKind
  | upstream | selfEdit
  deriving DecidableEq, Repr

structure RunRecord where
  nodePath : NodePath
  /-- Has the run been handed to the side loop (`et`)? -/
  launched : Bool := false
  identityChecksum : Option Checksum := none
  resultChecksum : Option Checksum := none
  /-- The exception of a failed run (`exception` and `error`). -/
  error : Option Error := none
  phase : RunPhase := .completed
  generation : Nat
  holdDeadline : Option Nat := none
  holdKind : Option HoldKind := none
  demandKey : Option DemandKey := none
  dispatchScratch : Option Bool := none
  deriving DecidableEq, Repr

/-- `Scheduler.superseded_cap`. -/
def supersededCap : Nat := 3

/-- `Scheduler.hold_deadline`, with times in seconds. -/
def holdDeadline (now : Nat) : HoldKind → Nat
  | .selfEdit => now + 30
  | .upstream => now + 300

structure ContextRuntime where
  currentRuns : AList (fun _ : NodePath => RunRecord) := ∅
  supersededRuns : AList (fun _ : NodePath => List RunRecord) := ∅
  generation : Nat := 0

namespace ContextRuntime

/-- `superseded_runs.get(path, ())`. -/
def queue (rt : ContextRuntime) (path : NodePath) : List RunRecord :=
  (rt.supersededRuns.lookup path).getD []

/-- `supersede`: move the current run to the queue; returns the runs the cap evicts. -/
def supersede (rt : ContextRuntime) (path : NodePath) (holdKind : HoldKind) (now : Nat) :
    ContextRuntime × List RunRecord :=
  match rt.currentRuns.lookup path with
  | none => (rt, [])
  | some current =>
    let record := { current with
      phase := .superseded, holdKind := some holdKind
      holdDeadline := some (holdDeadline now holdKind) }
    let queue := rt.queue path ++ [record]
    let excess := queue.length - supersededCap
    ({ rt with
        currentRuns := rt.currentRuns.erase path
        supersededRuns := rt.supersededRuns.insert path (queue.drop excess) },
      queue.take excess)

/-- `prune`: drop the queues of the selected nodes. -/
def prune (rt : ContextRuntime) (selected : NodePath → Bool) : ContextRuntime :=
  { rt with supersededRuns :=
      (rt.supersededRuns.keys.filter selected).foldl (fun q path => q.erase path) rt.supersededRuns }

/-- Drop the records of a node. -/
def dropNode (rt : ContextRuntime) (path : NodePath) : ContextRuntime :=
  { rt with
    currentRuns := rt.currentRuns.erase path
    supersededRuns := rt.supersededRuns.erase path }

/-- The records of a node: its current run and its queue. -/
def recordsAt (rt : ContextRuntime) (path : NodePath) : List RunRecord :=
  (rt.currentRuns.lookup path).toList ++ rt.queue path

end ContextRuntime

/-- The content key of a fact. -/
inductive FactKey
  | expression (checksum : Checksum) (path : Path) (input output : Celltype)
      (validator validatorLanguage : Option String) (scratch materialize : Bool)
  | celljoin (checksum : Checksum) (celltype : Celltype) (scratch : Bool)
  deriving DecidableEq, Repr

/-- What the evaluation of a fact gave. -/
inductive FactValue
  | result (checksum : Checksum)
  | failure (e : Error)
  deriving DecidableEq, Repr

/-- What a turn leaves to be done after it. -/
inductive Effect
  | launchJob (key : FactKey)
  | cancelJob (key : FactKey)
  | launchRun (path : NodePath) (generation : Nat) (key : DemandKey) (ident : Nat)
  | cancelRun (generation : Nat)
  | expiryTimer (path : NodePath) (generation : Nat)
  /-- A run that was already delivered is finished again, by a message to the own controller. -/
  | repost (path : NodePath) (generation : Nat) (identity result : Option Checksum)
      (error : Option Error)
  deriving DecidableEq, Repr

/-- What derivation reads and writes of an attachment session. -/
structure MountSession where
  senses : Bool
  senseError : Option Error := none
  deriving DecidableEq, Repr

/-- What derivation reads. -/
structure View where
  graph : ContextGraph
  facts : AList (fun _ : FactKey => FactValue)

/-- The derivation of a node: what is read for it, the errors of its attachments included. -/
structure Derivation where
  path : NodePath
  view : View
  senseErrors : List Error

structure Ctx where
  graph : ContextGraph := {}
  runtime : ContextRuntime := {}
  facts : AList (fun _ : FactKey => FactValue) := ∅
  jobs : List FactKey := []
  usedFacts : List FactKey := []
  effects : List Effect := []
  revisions : AList (fun _ : NodePath => Nat) := ∅
  codeRefholds : AList (fun _ : NodePath => Checksum) := ∅
  moduleRefholds : AList (fun _ : NodePath × String => Checksum) := ∅
  /-- Keyed by the generation of the run, which stands for the identity of its record. -/
  supersededRefholds : AList (fun _ : Nat => Checksum) := ∅
  anonymousCurrentUpdates : AList (fun _ : String => Checksum) := ∅
  anonymousCurrentRefholds : AList (fun _ : String => Checksum) := ∅
  edgeCodeStates : AList (fun _ : NodePath => Checksum) := ∅
  edgePinRefholds : AList (fun _ : NodePath × String => Checksum × Bool) := ∅
  mountSessions : AList (fun _ : NodePath × String => MountSession) := ∅
  /-- The results whose buffers cannot be found in this turn. -/
  missing : List Checksum := []
  /-- The references acquired and not yet released, per checksum: `incref_refholder` adds one,
  `decref_refholder` takes one away. -/
  held : Checksum → Int := fun _ => 0
  /-- The next object identity. -/
  nextIdent : Nat := 0
  /-- The time that `time()` returns in this turn. -/
  now : Nat := 0
  closing : Bool := false
  /-- Has the controller been poisoned by an internal failure? -/
  poisoned : Bool := false
  /-- Has the graph been derived since it, the facts or the runs last changed? The code does not
  record this: a turn that raises in its middle can leave a changed graph underived. -/
  settled : Bool := true
  /-- The nodes that this turn has derived so far, the latest first. The code does not record these
  either. -/
  derivations : List Derivation := []

namespace Ctx

/-- `checksum.incref_refholder()`. -/
def incref (c : Checksum) (ctx : Ctx) : Ctx :=
  { ctx with held := fun d => if d = c then ctx.held d + 1 else ctx.held d }

/-- `checksum.decref_refholder()`. -/
def decref (c : Checksum) (ctx : Ctx) : Ctx :=
  { ctx with held := fun d => if d = c then ctx.held d - 1 else ctx.held d }

def increfAll (cs : List Checksum) (ctx : Ctx) : Ctx := cs.foldl (fun ctx c => ctx.incref c) ctx

def decrefAll (cs : List Checksum) (ctx : Ctx) : Ctx := cs.foldl (fun ctx c => ctx.decref c) ctx

/-- The graph has to be derived again. -/
def unsettle (ctx : Ctx) : Ctx := { ctx with settled := false }

/-- Change the graph; it has to be derived again. -/
def modifyGraph (f : ContextGraph → ContextGraph) (ctx : Ctx) : Ctx :=
  { ctx with graph := f ctx.graph, settled := false }

def node? (ctx : Ctx) (path : NodePath) : Option Node := ctx.graph.nodes.lookup path

def addEffect (effect : Effect) (ctx : Ctx) : Ctx := { ctx with effects := ctx.effects ++ [effect] }

/-- `_revisions.get(path, 0)`. -/
def revision (ctx : Ctx) (path : NodePath) : Nat := (ctx.revisions.lookup path).getD 0

/-- `_revisions[path] = _revisions.get(path, 0) + 1`. -/
def bumpRevision (path : NodePath) (ctx : Ctx) : Ctx :=
  { ctx with revisions := ctx.revisions.insert path (ctx.revision path + 1) }

/-- The sessions of a node. -/
def sessionsFor (ctx : Ctx) (path : NodePath) : List MountSession :=
  (ctx.mountSessions.entries.filter fun entry => decide (entry.1.1 = path)).map Sigma.snd

/-- `_mount_has_sensing`. -/
def hasSensing (ctx : Ctx) (path : NodePath) : Bool :=
  match ctx.node? path with
  | none => false
  | some node =>
    (node.mount.map AttachmentSpec.senses).getD false ||
      (node.share.map ShareSpec.senses).getD false || node.widgets.any Prod.snd ||
      (ctx.sessionsFor path).any MountSession.senses

/-- `_mount_has_attachments`. -/
def hasAttachments (ctx : Ctx) (path : NodePath) : Bool :=
  (match ctx.node? path with
    | none => false
    | some node => node.mount.isSome || node.share.isSome || !node.widgets.isEmpty) ||
  !(ctx.sessionsFor path).isEmpty

/-- Set derived fields of a node. -/
def setDerived (path : NodePath) (f : Node → Node) (ctx : Ctx) : Ctx :=
  { ctx with graph := ctx.graph.updateNode path f }

/-- `_replace_current_checksum`: acquire the new result, then release the old one. -/
def replaceCurrentChecksum (env : Substrate) (path : NodePath) (checksum : Option Checksum)
    (ctx : Ctx) : Ctx :=
  match ctx.node? path with
  | none => ctx
  | some node =>
    let new := checksum.map fun c => env.canonicalize c node.celltype
    let ctx := (ctx.increfAll new.toList).setDerived path fun node =>
      { node with currentChecksum := new }
    (ctx.decrefAll node.currentChecksum.toList).unsettle

/-! ## The claims of the Context -/

/-- What a node claims: its producers, its modules and its result. Code is claimed separately. -/
def nodeClaims (node : Node) : List Checksum :=
  (match node.body with
    | .cell fields => (fields.rootProducer.map ConstantProducer.checksum).toList
    | .transformer fields =>
      (fields.pinProducers.entries.map fun entry => entry.2.checksum) ++
        fields.config.modules.filterMap fun entry =>
          match entry.2 with
          | .checksum c => some c
          | .other _ => none) ++
  node.currentChecksum.toList

/-- The code that a transformer claims: none when an edge feeds its code. -/
def codeClaim (g : ContextGraph) (path : NodePath) (node : Node) : Option Checksum :=
  match node.body with
  | .cell _ => none
  | .transformer fields =>
    if (g.incomingEdge path [.key "code"]).isSome then none else fields.config.codeChecksum

/-- The root expressions of the cells, each object once. -/
def rootExpressions (g : ContextGraph) : List RootExpression :=
  (g.nodes.entries.filterMap fun entry =>
    entry.2.cellFields.bind CellFields.rootExpression).dedup

/-- The results of superseded runs, by generation. -/
def supersededResults (rt : ContextRuntime) : List (Nat × Checksum) :=
  rt.supersededRuns.entries.flatMap fun entry =>
    entry.2.filterMap fun record =>
      if record.phase = .cancelled then none
      else record.resultChecksum.map fun c => (record.generation, c)

/-- `_refheld_checksums`: the checksums the Context claims, computed from graph and runtime. -/
def refheldChecksums (env : Substrate) (ctx : Ctx) : List Checksum :=
  (ctx.graph.nodes.entries.flatMap fun entry =>
    nodeClaims entry.2 ++ (codeClaim ctx.graph entry.1 entry.2).toList) ++
  (rootExpressions ctx.graph).flatMap env.expressionHolds ++
  (supersededResults ctx.runtime).map Prod.snd ++
  (ctx.anonymousCurrentRefholds.entries.map fun entry => entry.2) ++
  ctx.edgePinRefholds.entries.map fun entry => entry.2.1

/-- `_release_refholds`: release everything that is claimed. -/
def releaseRefholds (env : Substrate) (ctx : Ctx) : Ctx :=
  { ctx.decrefAll (ctx.refheldChecksums env) with
    supersededRefholds := ∅, anonymousCurrentRefholds := ∅, edgePinRefholds := ∅ }

end Ctx

end SeamlessWorkflow
