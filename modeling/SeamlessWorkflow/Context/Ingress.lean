import SeamlessWorkflow.Context.System

/-!
# Calls that read and write back

A call of the ingress runs in the thread of its caller. The setters of a configuration and the edits
of a part of a cell read from the controller, compute in that thread, and write back on condition that
nothing has been changed meanwhile. Between their turns any other message may arrive.
-/

namespace SeamlessWorkflow

/-- What a caller asks for. What it computes from what it has read is a function of that. -/
inductive Command
  /-- `_set_node_config`: `update_config` with its arguments, then `fingerprint`. -/
  | setNodeConfig (path : NodePath) (update : NodeConfig → Except Error NodeConfig)
  /-- `_edit`: the new content, from the celltype of the old content, from the celltypes which the
  caller has seen at the node since, and from the old content. Without old content the edit starts
  from an empty mapping. -/
  | edit (path : NodePath) (localPath : Path) (detach : Bool)
      (compute : Celltype → List Celltype → Option Checksum → Except Error Checksum)

/-- How far a call has come. -/
inductive Phase
  | ready
  | holdsConfig (config : NodeConfig) (revision : Nat)
  | holdsBase (base : UpdateBase) (seen : List Celltype)
  | holdsContent (base : UpdateBase) (checksum : Checksum)
  | returned
  | raised
  deriving DecidableEq

structure Call where
  command : Command
  /-- The passes of the loop that are left. -/
  passes : Nat := 8
  phase : Phase := .ready

namespace Call

def raise (call : Call) : Call := { call with phase := .raised }

/-- The next pass of the loop, or `ConcurrentUpdateError`. -/
def retry (call : Call) : Call :=
  { call with
    passes := call.passes - 1
    phase := if call.passes ≤ 1 then .raised else .ready }

/-- The reply of `_config_snapshot`. -/
def snapshot (call : Call) : Option (NodeConfig × Nat) → Call
  | some (config, revision) => { call with phase := .holdsConfig config revision }
  | none => call.raise

/-- The reply of `_update_base`: an edit of content that is on its way waits for it and begins again,
and one without content starts from an empty mapping when no edge feeds the cell. -/
def rebase (call : Call) (localPath : Path) : Option UpdateBase → Call
  | none => call.raise
  | some base =>
    if base.checksum.isSome then { call with phase := .holdsBase base [] }
    else if base.state = .waiting ∨ base.state = .computing then call.retry
    else if localPath.head?.any Component.isKey ∧ base.incoming = [] then
      { call with phase := .holdsBase base [] }
    else call.raise

/-- The reply of `_publish_config` and of `_commit_update`. -/
def answered (call : Call) : Option Bool → Call
  | some true => { call with phase := .returned }
  | some false => call.retry
  | none => call.raise

end Call

/-- The controller with the calls of its callers. -/
structure Ingress where
  sys : System := {}
  calls : List Call := []

/-- What may happen next. -/
inductive IngressEvent
  | message (event : Event)
  | call (command : Command)
  /-- A call has its read taken as a turn. -/
  | read (i : Nat) (now : Nat) (missing : List Checksum)
  /-- A caller looks at the celltype of the node, outside the controller. -/
  | look (i : Nat)
  | compute (i : Nat)
  /-- A call has its write taken as a turn. -/
  | write (i : Nat) (now : Nat) (missing : List Checksum)

namespace Ingress

/-- A turn that a call waits for. -/
def ask {α : Type} (env : Substrate) (program : M α) (now : Nat) (missing : List Checksum)
    (i : Nat) (proceed : Option α → Call) (g : Ingress) : Ingress :=
  { sys := g.sys.turn env program now missing
    calls := g.calls.set i (proceed (g.sys.reply env program now missing)) }

def proceed (i : Nat) (call : Call) (g : Ingress) : Ingress := { g with calls := g.calls.set i call }

def read (env : Substrate) (i now : Nat) (missing : List Checksum) (call : Call) (g : Ingress) :
    Option Ingress :=
  match call.phase, call.command with
  | .ready, .setNodeConfig path _ => some (g.ask env (configSnapshot path) now missing i call.snapshot)
  | .ready, .edit path localPath detach _ =>
    some (g.ask env (updateBase path localPath detach) now missing i (call.rebase localPath))
  | _, _ => none

/-- `_node_celltype`, read by an edit. -/
def look (i : Nat) (call : Call) (g : Ingress) : Option Ingress :=
  match call.phase, call.command with
  | .holdsBase base seen, .edit path _ _ _ =>
    match g.sys.ctx.node? path with
    | some node =>
      some (g.proceed i { call with phase := .holdsBase base (seen ++ [node.celltype]) })
    | none => some (g.proceed i call.raise)
  | _, _ => none

def compute (i : Nat) (call : Call) (g : Ingress) : Option Ingress :=
  match call.phase, call.command with
  | .holdsBase base seen, .edit _ _ _ compute =>
    match compute base.celltype seen base.checksum with
    | .ok checksum => some (g.proceed i { call with phase := .holdsContent base checksum })
    | .error _ => some (g.proceed i call.raise)
  | _, _ => none

def write (env : Substrate) (i now : Nat) (missing : List Checksum) (call : Call) (g : Ingress) :
    Option Ingress :=
  match call.phase, call.command with
  | .holdsConfig config revision, .setNodeConfig path update =>
    match update config with
    | .ok config => some (g.ask env (publishConfig env path revision config) now missing i call.answered)
    | .error _ => some (g.proceed i call.raise)
  | .holdsContent base checksum, .edit path localPath detach _ =>
    some (g.ask env (commitUpdate env path localPath checksum base.checksum base.revision detach) now
      missing i call.answered)
  | _, _ => none

/-- One event. -/
def step (env : Substrate) (g : Ingress) : IngressEvent → Option Ingress
  | .message event => (g.sys.step env event).map fun sys => { g with sys := sys }
  | .call command => some { g with calls := g.calls ++ [{ command := command }] }
  | .read i now missing => (g.calls[i]?).bind fun call => g.read env i now missing call
  | .look i => (g.calls[i]?).bind fun call => g.look i call
  | .compute i => (g.calls[i]?).bind fun call => g.compute i call
  | .write i now missing => (g.calls[i]?).bind fun call => g.write env i now missing call

end Ingress

end SeamlessWorkflow
