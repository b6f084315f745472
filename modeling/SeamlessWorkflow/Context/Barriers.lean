import SeamlessWorkflow.Context.System

/-!
# Barriers

A caller waits on its own thread, for a future that the controller completes. The controller looks at
the futures that are pending after every turn; when it is closed or poisoned, it fails them.
-/

namespace SeamlessWorkflow

def NodeState.isPending : NodeState → Bool
  | .waiting | .computing => true
  | _ => false

/-- The states in which a read has nothing to wait for and no result. -/
def NodeState.isIncomplete : NodeState → Bool
  | .miswired | .unwired | .blocked | .failed => true
  | _ => false

namespace ContextGraph

/-- `_upstream_cone`. -/
def upstreamCone (g : ContextGraph) (path : NodePath) : List NodePath :=
  (Reach.reached ((g.edges.filterMap g.edgeNodes).map Prod.swap) path).filter fun p => decide (p ≠ path)

/-- Is the node waiting or computing? -/
def isPending (g : ContextGraph) (path : NodePath) : Bool :=
  (g.nodes.lookup path).any fun node => node.state.isPending

end ContextGraph

/-- What the text of a `NodeError` says after the state. -/
inductive ErrorDetail
  | blockReason (reason : Option BlockReason)
  | missingPin (pin : String)
  | pinCelltype (pin : String) (expected got : Celltype)
  | pinSource (pin : String)
  deriving DecidableEq, Repr

/-- The first pin, by name, that is blocked for this reason. -/
def TransformerFields.firstBlockedPin (fields : TransformerFields) (reason : Reason) : Option String :=
  (sortPins ((fields.pinBlockReasons.filter fun entry => decide (entry.2 = reason)).map Prod.fst)).head?

/-- `_node_error_detail`. It raises `KeyError` when the source of a miswired pin does not resolve. -/
def ContextGraph.nodeErrorDetail (g : ContextGraph) (path : NodePath) (node : Node) :
    Option ErrorDetail :=
  match node.body with
  | .cell _ => some (.blockReason node.blockReason)
  | .transformer fields =>
    match node.state with
    | .unwired =>
      match fields.firstBlockedPin .unwired with
      | some pin => some (.missingPin pin)
      | none => some (.blockReason node.blockReason)
    | .miswired =>
      match fields.firstBlockedPin .miswired with
      | none => some (.blockReason node.blockReason)
      | some pin =>
        match (g.incomingFor path).lookup [.key pin] with
        | none => some (.pinSource pin)
        | some edge =>
          (g.resolveExisting edge.source).map fun source =>
            .pinCelltype pin (fields.config.celltypeOf pin)
              (projectedCelltype (g.nodeCelltype source.1) source.2)
    | _ => some (.blockReason node.blockReason)

/-- The exceptions with which a wait fails. -/
inductive WaitError
  /-- `StaleWorkflowHandleError`. -/
  | stale (path : NodePath)
  /-- The exception of a failed node. -/
  | raised (e : Error)
  /-- `NodeError`. -/
  | incomplete (state : NodeState) (detail : ErrorDetail)
  | closed
  | controllerFailed
  deriving DecidableEq, Repr

inductive WaitResult
  | nothing
  /-- A `Lease`. -/
  | lease (checksum : Option Checksum) (celltype : Celltype)
  /-- The report of a `sync`. -/
  | report
  deriving DecidableEq, Repr

/-- What a caller waits for. -/
inductive Wait
  /-- `_install_wait` without a path. No caller reads the whole Context. -/
  | whole (barrier : Bool)
  | node (path : NodePath) (read barrier returnNoneOnIncomplete : Bool)
  /-- A `SyncPredicate`, which has its own check. -/
  | sync
  deriving DecidableEq, Repr

/-- What a check makes of a wait. -/
inductive Verdict
  | stays
  | resolves (outcome : Except WaitError WaitResult)
  /-- The check itself raises. -/
  | raises

/-- The outcome of a read of a node that is not complete and will not become so. -/
def ContextGraph.checkIncomplete (g : ContextGraph) (path : NodePath) (node : Node)
    (returnNoneOnIncomplete : Bool) : Verdict :=
  if returnNoneOnIncomplete then .resolves (.ok .nothing)
  else match g.nodeErrorDetail path node with
    | none => .raises
    | some detail =>
      if node.state = .failed then
        -- a future whose exception is set to None returns None
        .resolves (match node.exception with
          | some e => .error (.raised e)
          | none => .ok .nothing)
      else .resolves (.error (.incomplete node.state detail))

/-- The body of the loop of `_check_barriers`, for a future that is not done. The answer of a
`SyncPredicate` is given. -/
def ContextGraph.checkWait (g : ContextGraph) (synced : Bool) : Wait → Verdict
  | .sync => if synced then .resolves (.ok .report) else .stays
  | .whole barrier =>
    if barrier && g.nodes.keys.any g.isPending then .stays else .resolves (.ok .nothing)
  | .node path read barrier returnNoneOnIncomplete =>
    match g.nodes.lookup path with
    | none => .resolves (.error (.stale path))
    | some node =>
      if barrier && (path :: g.upstreamCone path).any g.isPending then .stays
      else if read && barrier && node.state.isIncomplete then
        g.checkIncomplete path node returnNoneOnIncomplete
      else if read then
        if node.currentChecksum.isNone && node.state.isPending then .stays
        else .resolves (.ok (.lease node.currentChecksum node.celltype))
      else .resolves (.ok .nothing)

/-- An entry of `_barriers`. -/
structure Barrier where
  future : Nat
  wait : Wait
  /-- The future was cancelled by the caller. -/
  done : Bool := false
  deriving DecidableEq, Repr

/-- A future that has been completed, with the graph at that moment. -/
structure Resolution where
  future : Nat
  wait : Wait
  outcome : Except WaitError WaitResult
  graph : ContextGraph

/-- The loop of `_check_barriers`: what stays pending, and what is completed. -/
def ContextGraph.checkBarriers (g : ContextGraph) (synced : List Nat) :
    List Barrier → List Barrier × List Resolution
  | [] => ([], [])
  | barrier :: barriers =>
    if barrier.done then checkBarriers g synced barriers
    else match g.checkWait (synced.contains barrier.future) barrier.wait with
      | .raises => (barrier :: barriers, [])
      | .stays =>
        let rest := checkBarriers g synced barriers
        (barrier :: rest.1, rest.2)
      | .resolves outcome =>
        let rest := checkBarriers g synced barriers
        (rest.1, ⟨barrier.future, barrier.wait, outcome, g⟩ :: rest.2)

/-- A system with the waits of its callers. The resolutions only record what has happened. -/
structure WaitSystem where
  sys : System := {}
  barriers : List Barrier := []
  next : Nat := 0
  resolutions : List Resolution := []

namespace WaitSystem

def graph (w : WaitSystem) : ContextGraph := w.sys.ctx.graph

/-- `_check_barriers`. -/
def check (w : WaitSystem) (synced : List Nat) : WaitSystem :=
  let checked := w.graph.checkBarriers synced w.barriers
  { w with barriers := checked.1, resolutions := w.resolutions ++ checked.2 }

/-- Fail what is pending, as `_begin_close` and `poison` do. -/
def failBarriers (w : WaitSystem) (e : WaitError) : WaitSystem :=
  { w with
    barriers := []
    resolutions := w.resolutions ++ (w.barriers.filter fun barrier => !barrier.done).map fun barrier =>
      ⟨barrier.future, barrier.wait, .error e, w.graph⟩ }

/-- What may happen next. -/
inductive Event
  /-- An event of the Context, with the sync futures that are found ready after it. -/
  | context (event : SeamlessWorkflow.Event) (synced : List Nat)
  /-- A turn of `_install_wait` or `_mount_sync`. -/
  | installWait (wait : Wait) (now : Nat) (missing : List Checksum) (synced : List Nat)
  /-- A turn of `_withdraw_wait`. -/
  | withdrawWait (future : Nat) (now : Nat) (missing : List Checksum) (synced : List Nat)
  /-- A caller cancels its future. -/
  | cancel (future : Nat)
  /-- `close` sets `_closing` on the thread of its caller; `_begin_close` is a later turn. -/
  | closing
  /-- A turn of class 5 raises. -/
  | poison

/-- The operations that look at the waits themselves. A poisoned controller refuses them. -/
def operate (w : WaitSystem) : Event → WaitSystem
  | .installWait wait _ _ synced =>
    if w.sys.ctx.poisoned then w
    else
      let installed : WaitSystem :=
        { w with barriers := w.barriers ++ [{ future := w.next, wait }], next := w.next + 1 }
      -- `_mount_sync` leaves the first check to the end of the turn
      if wait = .sync then installed else installed.check synced
  | .withdrawWait future _ _ _ =>
    if w.sys.ctx.poisoned then w
    else { w with barriers := w.barriers.filter fun barrier => decide (barrier.future ≠ future) }
  | _ => w

/-- The end of a turn: `_after_turn`, once the attachments have been looked at, checks what is pending
before and after the effects. A Context that has been closed or poisoned in the turn has failed it. -/
def endTurn (w : WaitSystem) (synced : List Nat) (e : WaitError) : WaitSystem :=
  if w.sys.ctx.poisoned then w.failBarriers e
  else if w.sys.ctx.closing then w
  else (w.check synced).check synced

/-- The exception with which a turn that closes or poisons the Context fails what is pending. -/
def closeError : SeamlessWorkflow.Event → WaitError
  | .turn .close _ _ => .closed
  | _ => .controllerFailed

def step (env : Substrate) (w : WaitSystem) (event : Event) : Option WaitSystem :=
  let operated := w.operate event
  match event with
  | .context (.cancelled run) _ =>
    (w.sys.step env (.cancelled run)).map fun sys => { w with sys }
  | .context event synced =>
    (w.sys.step env event).map fun sys =>
      ({ w with sys } : WaitSystem).endTurn synced (closeError event)
  | .installWait _ now missing synced | .withdrawWait _ now missing synced =>
    some ({ operated with
      sys := w.sys.turn env (pure () : M Unit) now missing }.endTurn synced .controllerFailed)
  | .cancel future =>
    some { w with barriers := w.barriers.map fun barrier =>
      if barrier.future = future then { barrier with done := true } else barrier }
  | .closing => some { w with sys := { w.sys with ctx := { w.sys.ctx with closing := true } } }
  | .poison =>
    some ({ w with sys := { w.sys with ctx := w.sys.ctx.poison } }.failBarriers .controllerFailed)

end WaitSystem

end SeamlessWorkflow
