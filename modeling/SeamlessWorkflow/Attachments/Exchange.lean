import SeamlessWorkflow.Attachments.Runtime
import SeamlessWorkflow.Library.Transition

/-!
# A session and its driver

The driver reports what the external side holds, and carries out the deliveries that are handed to it,
one after the other. What it tells the controller arrives in order. In between the external side
changes as it likes, and so does the node.
-/

namespace SeamlessWorkflow

namespace Mount

open Transport

/-- What the driver tells the controller, with the version of the external side that it speaks of. -/
inductive Report
  | observed (o : Transport.Observation Nat)
  | delivered (ack : DeliveryAck Nat)
  deriving DecidableEq, Repr

structure Message where
  report : Report
  version : Nat
  deriving DecidableEq, Repr

/-- A session, its node and its driver. -/
structure Exchange where
  session : Session Nat
  node : NodeView
  now : Nat := 0
  /-- What the external side has held in each of its versions. -/
  history : Nat → External
  version : Nat := 0
  /-- The version that the driver has spoken of last. -/
  seen : Nat := 0
  /-- The version that the session has been told of last. -/
  told : Nat := 0
  ws : Nat
  /-- Deliveries that the driver has to carry out. -/
  jobs : List (Delivery Nat) := []
  /-- What the driver has told the controller and has not been processed. -/
  messages : List Message := []

namespace Exchange

/-- What the external side holds. -/
def content (x : Exchange) : External := x.history x.version

/-- The fingerprint of a version. There is none when nothing is there. -/
def fingerprintOf (x : Exchange) (version : Nat) : Option Nat :=
  if x.history version = .absent then none else some version

/-- Does the driver carry out a delivery that expects this fingerprint? A widget takes every value when
none is expected. -/
def accepts (x : Exchange) (expected : Option Nat) : Bool :=
  expected = x.fingerprintOf x.version || (x.session.spec.driver = .widget && expected = none)

/-- The session and its node, as a handler finds them. -/
def attached (x : Exchange) : Attached Nat := { session := x.session, node := x.node }

/-- The end of a turn: the session looks at its node, and its deliveries go to the driver. -/
def endTurn (null : Checksum) (a : Attached Nat) (node : NodeView) (x : Exchange) : Exchange :=
  let a := Attached.afterTurn null x.now { a with node }
  { x with session := a.session, node, jobs := x.jobs ++ a.effects }

inductive Event
  | elapse (duration : Nat)
  /-- The external side changes by itself. -/
  | change (content : External)
  /-- The driver reports a version. -/
  | observe (version : Nat) (reason : String) (noValue needsCanonicalWrite : Bool)
  /-- The driver carries out a delivery. -/
  | execute (outcome : DeliveryOutcome) (reason : String)
  /-- A turn after which the node shows this; it may have set the root of the node. -/
  | turn (node : NodeView) (rooted : Bool)
  /-- The next message is processed. When it sets the root of the node, the node shows this after it. -/
  | receive (node : NodeView)
  | clearError
  deriving DecidableEq

/-- The driver carries out a delivery; what it writes is in canonical form. -/
def execute (canonical : Checksum → Checksum) (outcome : DeliveryOutcome) (reason : String)
    (x : Exchange) : Option Exchange :=
  match x.jobs with
  | [] => none
  | delivery :: jobs =>
    match outcome with
    | .written =>
      if x.accepts delivery.expectedFingerprint then
        let checksum := canonical delivery.checksum
        let version := x.version + 1
        let ack : DeliveryAck Nat :=
          { seq := delivery.seq, ws := x.ws + 1, outcome := .written, checksum
            fingerprint := some version }
        some { x with
          history := Function.update x.history version (.value checksum)
          version, seen := version, ws := x.ws + 1, jobs
          messages := x.messages ++ [{ report := .delivered ack, version }] }
      else none
    | .conflict =>
      if delivery.expectedFingerprint ≠ x.fingerprintOf x.version then
        let ack : DeliveryAck Nat := { seq := delivery.seq, ws := x.ws, outcome := .conflict }
        some { x with
          jobs, messages := x.messages ++ [{ report := .delivered ack, version := x.seen }] }
      else none
    | .error =>
      let ack : DeliveryAck Nat := { seq := delivery.seq, ws := x.ws, outcome := .error, reason }
      some { x with
        jobs, messages := x.messages ++ [{ report := .delivered ack, version := x.seen }] }

/-- A message is processed. -/
def receive (null : Checksum) (node : NodeView) (x : Exchange) : Option Exchange :=
  match x.messages with
  | [] => none
  | message :: messages =>
    let x := { x with messages }
    match message.report with
    | .observed o =>
      let a := x.attached.observed x.now o
      let node := if a.root.isSome then node else x.node
      some ({ x with told := message.version }.endTurn null a node)
    | .delivered ack =>
      let a := x.attached.delivered null x.now ack
      let told := if ack.outcome = .written then message.version else x.told
      some ({ x with told }.endTurn null a x.node)

def step (null : Checksum) (canonical : Checksum → Checksum) (x : Exchange) : Event → Option Exchange
  | .elapse duration => some { x with now := x.now + duration }
  | .change content => some { x with
      history := Function.update x.history (x.version + 1) content, version := x.version + 1 }
  | .observe version reason noValue needsCanonicalWrite =>
    if x.seen ≤ version ∧ version ≤ x.version then
      let o : Transport.Observation Nat :=
        { ws := x.ws + 1, fingerprint := x.fingerprintOf version, checksum := x.history version
          reason, noValue, needsCanonicalWrite }
      some { x with
        ws := x.ws + 1, seen := version
        messages := x.messages ++ [{ report := .observed o, version }] }
    else none
  | .execute outcome reason => x.execute canonical outcome reason
  | .turn node rooted =>
    let s := if rooted then { x.session with senseError := none } else x.session
    some (x.endTurn null { x.attached with session := s } node)
  | .receive node => x.receive null node
  | .clearError => some (x.endTurn null x.attached.clearError x.node)

/-- A session that has been attached, with its driver. -/
def start (null : Checksum) (a : Attached Nat) (o : Transport.Observation Nat) (node : NodeView) (now : Nat) :
    Exchange :=
  let x : Exchange := { session := a.session, node, now, history := fun _ => o.checksum, ws := o.ws }
  x.endTurn null a (if a.root.isSome then node else a.node)

end Exchange

end Mount

end SeamlessWorkflow
