import SeamlessWorkflow.Attachments.Policy

/-!
# Mount sessions

A session carries the values of one node to an external side and back. It keeps what it knows of that
side, the delivery that is asked for and the one that is on its way. Its handlers run in the turns of the
controller.
-/

namespace SeamlessWorkflow

namespace Mount

open Transport

inductive SessionState
  | active
  | tripped
  | closing
  deriving DecidableEq, Repr

variable {φ : Type}

/-- `MountSession` -/
structure Session (φ : Type) where
  id : Nat
  nodePath : NodePath
  spec : Spec
  directory : Bool := false
  disk : External
  fingerprint : Option φ
  processedWs : Nat := 0
  lastSynced : Option Checksum := none
  /-- What was delivered last, and what it is on the external side. -/
  writtenPair : Option (Checksum × External) := none
  pending : Option (Delivery φ) := none
  inFlight : Option (Delivery φ) := none
  deliverySeq : Nat := 0
  reasserts : List Nat := []
  senseError : Option String := none
  error : Option String := none
  state : SessionState := .active
  /-- Is the future of the first delivery done? -/
  initial : Bool := false
  retryAt : Nat := 0
  retryDelay : Nat := second
  lastDeliveryAt : Nat := 0
  deriving DecidableEq, Repr

/-- What a node shows to its sessions. -/
structure NodeView where
  state : NodeState
  checksum : Option Checksum
  /-- The error of `_validate_write`, when an edge controls the cell. -/
  refusal : Option String := none
  known : state = .complete → checksum.isSome = true := by decide
  deriving DecidableEq, Repr

/-- The checksum of a node that is complete. -/
def NodeView.value (node : NodeView) : Option Checksum :=
  if node.state = .complete then node.checksum else none

/-- A session with what its handlers read and change of the Context. -/
structure Attached (φ : Type) where
  session : Session φ
  node : NodeView
  /-- The root that the session has given its node in this turn. -/
  root : Option Checksum := none
  /-- `_mount_activity` -/
  activity : Nat := 0
  /-- The deliveries that are handed to the driver after the turn. -/
  effects : List (Delivery φ) := []
  deriving DecidableEq, Repr

namespace Attached

/-- `_mount_request` -/
def request (checksum : Checksum) (force : Bool) (a : Attached φ) : Attached φ :=
  let s := a.session
  if s.state ≠ .active then a
  else
    let delivery : Delivery φ :=
      { seq := s.deliverySeq + 1, checksum, expectedFingerprint := s.fingerprint, force }
    { a with
      session := { s with
        deliverySeq := s.deliverySeq + 1, pending := some delivery, lastSynced := some checksum
        retryAt := 0 }
      activity := a.activity + 1 }

/-- `_mount_sense_error` -/
def recordSenseError (reason : String) (a : Attached φ) : Attached φ :=
  { a with session := { a.session with senseError := some (a.session.spec.path ++ ": " ++ reason) } }

/-- What `_mount_sense` and `_mount_sense_null` share: the node gets a root, unless it is controlled by
an edge. -/
def setRoot (checksum : Checksum) (a : Attached φ) : Except String (Attached φ) :=
  match a.node.refusal with
  | some refusal => .error refusal
  | none => .ok { a with
      session := { a.session with senseError := none, lastSynced := some checksum }
      root := some checksum
      activity := a.activity + 1 }

/-- `_mount_sense`. An observation that is sensed has a checksum. -/
def sense (checksum : Checksum) (a : Attached φ) : Except String (Attached φ) :=
  -- a newer sensed value supersedes an undispatched user edit
  (a.setRoot checksum).map fun a => { a with session := { a.session with pending := none } }

/-- The external side holds what a delivery asks for. -/
def equivalent (null checksum : Checksum) (s : Session φ) : Bool :=
  s.disk = .value checksum || (checksum = null && s.disk = .absent && s.spec.driver ≠ .share) ||
    (s.directory && checksum = null)

/-- `_mount_dispatch` -/
def dispatch (null : Checksum) (now : Nat) (a : Attached φ) : Attached φ :=
  let s := a.session
  match s.inFlight, s.pending with
  | none, some delivery =>
    if s.state ≠ .active ∨ now < s.retryAt then a
    else if equivalent null delivery.checksum s ∧ !delivery.force then
      { a with session := { s with pending := none, initial := true } }
    else if now < s.lastDeliveryAt + deliveryInterval then a
    else
      let delivery := { delivery with expectedFingerprint := s.fingerprint }
      { a with
        session := { s with pending := none, inFlight := some delivery, lastDeliveryAt := now }
        effects := a.effects ++ [delivery] }
  | _, _ => a

/-- The part of `_mount_observed` that gives the value or the error of an observation to the node. -/
def take (kind : Classification) (o : Transport.Observation φ) (a : Attached φ) : Except String (Attached φ) :=
  let s := a.session
  match kind, o.checksum with
  | .foreign, .value checksum => if s.spec.mode.senses then a.sense checksum else .ok a
  | .rejected, _ => .ok (if s.spec.mode.senses then a.recordSenseError o.reason else a)
  | .absent, _ =>
    if s.spec.authority = .fileStrict then .ok (a.recordSenseError "Required file is missing")
    else .ok { a with session := { s with senseError := none } }
  | .unchanged, .value checksum =>
    if s.spec.mode.senses ∧ s.senseError.isSome then a.sense checksum else .ok a
  | _, _ => .ok a

/-- What the external side holds is written in canonical form. -/
def canonicalize (kind : Classification) (o : Transport.Observation φ) (a : Attached φ) : Attached φ :=
  match o.checksum with
  | .value checksum =>
    if a.session.spec.mode = .rw ∧ o.needsCanonicalWrite ∧ (kind = .foreign ∨ kind = .unchanged) ∧
        a.session.senseError = none then
      let source := if kind = .foreign then checksum else a.node.value.getD checksum
      a.request source true
    else a
  | _ => a

/-- `hex` -/
def hex (checksum : Checksum) : String :=
  let digits := Nat.toDigits 16 checksum.value
  String.ofList (List.replicate (64 - digits.length) '0' ++ digits)

/-- The text of a side in an error. -/
def sideText : External → String
  | .absent => "ABSENT"
  | .invalid => "INVALID"
  | .value checksum => hex checksum

/-- What a write-only session does when its value has been replaced. -/
def insist (now : Nat) (kind : Classification) (o : Transport.Observation φ) (a : Attached φ) : Attached φ :=
  let s := a.session
  match a.node.value with
  | some checksum =>
    if reassert s.spec.mode a.node.state kind ∧ s.state = .active then
      let (reasserts, tripped) := detector s.reasserts now
      if tripped then
        { a with session := { s with
            reasserts, state := .tripped, pending := none
            error := some (s.spec.path ++ ": three reasserts in 20 seconds (" ++
              sideText o.checksum ++ ", " ++ hex checksum ++ ")") } }
      else Attached.request checksum false { a with session := { s with reasserts } }
    else a
  | none => a

variable [DecidableEq φ]

/-- How a session classifies an observation. -/
def classify (o : Transport.Observation φ) (s : Session φ) : Classification :=
  classifyObservation o.ws s.processedWs o.checksum s.disk (s.inFlight.map Delivery.checksum)
    o.fingerprint s.fingerprint

/-- `_mount_observed`. An exception becomes the error of the session. -/
def observed (now : Nat) (o : Transport.Observation φ) (a : Attached φ) : Attached φ :=
  let kind := classify o a.session
  if kind = .stale then a
  else
    let a := { a with session := { a.session with
      processedWs := o.ws, disk := o.checksum, fingerprint := o.fingerprint } }
    match a.take kind o with
    | .error text => { a with session := { a.session with error := some text } }
    | .ok a => (a.canonicalize kind o).insist now kind o

omit [DecidableEq φ] in
/-- The part of `_mount_after_turn` that belongs to a session. -/
def afterTurn (null : Checksum) (now : Nat) (a : Attached φ) : Attached φ :=
  let s := a.session
  let a :=
    match a.node.value with
    | some checksum =>
      if s.spec.mode.writes ∧ s.lastSynced ≠ some checksum then
        let a := { a with session := { s with lastSynced := some checksum } }
        if s.disk ≠ External.value checksum then a.request checksum false else a
      else a
    | none => a
  a.dispatch null now

/-- The part of `_mount_delivered` that does not depend on whether the Context is closing. -/
def acknowledge (now : Nat) (ack : DeliveryAck φ) (delivery : Delivery φ) (a : Attached φ) :
    Attached φ :=
  let s := { a.session with inFlight := none, initial := true }
  match ack.outcome with
  | .written =>
    let s :=
      if s.processedWs < ack.ws then
        -- an acknowledgement that something is written names its checksum
        let disk := ack.checksum.elim External.absent External.value
        { s with
          disk, fingerprint := ack.fingerprint, processedWs := ack.ws
          writtenPair := some (delivery.checksum, disk) }
      else s
    { a with session := { s with
        error := if s.state = .tripped then s.error else none, retryDelay := second } }
  | .error =>
    let s := if s.state = .tripped then s
      else { s with error := some (s.spec.path ++ ": " ++ ack.reason) }
    if s.pending = none ∧ s.state = .active then
      { a with session := { s with
          pending := some delivery, retryAt := now + s.retryDelay
          retryDelay := min (60 * second) (s.retryDelay * 2) } }
    else { a with session := s }
  | .conflict => { a with session := s }

/-- `_mount_delivered`, while the Context is not closing. -/
def delivered (null : Checksum) (now : Nat) (ack : DeliveryAck φ) (a : Attached φ) : Attached φ :=
  match a.session.inFlight with
  | some delivery =>
    if delivery.seq = ack.seq then (a.acknowledge now ack delivery).dispatch null now else a
  | none => a

/-- `_mount_clear_error` -/
def clearError (a : Attached φ) : Attached φ :=
  let a := { a with session := { a.session with
    error := none, state := .active, reasserts := [], retryAt := 0 } }
  match a.node.value with
  | some checksum => if a.session.spec.mode.writes then a.request checksum false else a
  | none => a

end Attached

/-- A session that is attached, with its first observation. -/
def attach (null : Checksum) (id : Nat) (nodePath : NodePath) (spec : Spec) (directory : Bool)
    (node : NodeView) (o : Transport.Observation φ) : Except String (Attached φ) := do
  let checksum := node.value
  let isNull : Bool := checksum = some null
  let session : Session φ :=
    { id, nodePath, spec, directory, disk := o.checksum, fingerprint := o.fingerprint
      processedWs := o.ws, lastSynced := checksum }
  let action := decideInitial spec o.checksum checksum o.noValue isNull
  let a : Attached φ := { session, node }
  let a ←
    match action, o.checksum with
    | .sense, .value checksum => a.sense checksum
    | .senseNull, _ => do
      let a ← a.setRoot null
      pure (if spec.driver = .share ∧ spec.mode = .rw then a.request null true else a)
    | .senseNullError, _ => (a.setRoot null).map (Attached.recordSenseError "Required file is missing")
    | .error, _ => pure (a.recordSenseError
        (if o.reason = "" then "Required file is missing" else o.reason))
    | .write, _ => pure (checksum.elim a fun checksum => a.request checksum false)
    | _, _ => pure a
  let a := if spec.driver = .share ∧ o.checksum = .absent ∧ isNull then a.request null true else a
  let a :=
    if spec.mode = .rw ∧ o.needsCanonicalWrite ∧ (action = .sense ∨ action = .nothing) then
      match o.checksum, action with
      | .value checksum, .sense => a.request checksum true
      | _, _ => checksum.elim a fun checksum => a.request checksum true
    else a
  pure { a with session := { a.session with
    initial := action ≠ .write && a.session.pending.isNone } }

end Mount

end SeamlessWorkflow
