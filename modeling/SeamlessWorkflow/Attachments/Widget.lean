import SeamlessWorkflow.Attachments.Runtime
import SeamlessWorkflow.Library.Transition

/-!
# A session and its widget

The user edits a widget on its own thread; the debounce timer, polls, cuts and deliveries read and set
its value in the jobs of the service. What the driver does under its lock is one step. An edit is two:
the widget has its new value before the driver's callback gets the lock.
-/

namespace SeamlessWorkflow

namespace Mount

open Transport

/-- `widget.value` -/
inductive WidgetValue
  | none
  /-- It has no checksum as a value of the celltype. -/
  | unreadable (reason : String)
  | value (checksum : Checksum)
  deriving DecidableEq, Repr

/-- What an observation of a value names. -/
def WidgetValue.side : WidgetValue → External
  | .none => .absent
  | .unreadable _ => .invalid
  | .value checksum => .value checksum

/-- Where the driver was when it told the session something: the edits made and those it had counted,
with its fingerprint. -/
structure Basis where
  edits : Nat
  heard : Nat
  fingerprint : Nat
  deriving DecidableEq, Repr

/-- `WidgetDriver`, with its registration. The last two fields count the user's edits, and those whose
callback has run. -/
structure WidgetDriver where
  value : WidgetValue
  fingerprint : Nat := 0
  editGeneration : Nat := 0
  pendingChange : Bool := false
  /-- The generation that the timer was started for. -/
  timer : Option Nat := none
  ws : Nat := 0
  closed : Bool := false
  edits : Nat := 0
  heard : Nat := 0
  deriving DecidableEq, Repr

/-- What the driver puts into its sink. -/
inductive WidgetReport
  | observed (o : Transport.Observation Nat)
  | delivered (ack : DeliveryAck Nat)
  | cut (id ws : Nat)
  deriving DecidableEq, Repr

structure WidgetMessage where
  report : WidgetReport
  basis : Basis
  deriving DecidableEq, Repr

/-- What it is to set the value of the widget. -/
structure Setting where
  /-- The value that the widget has afterwards. -/
  result : WidgetValue
  /-- The driver's callback is called meanwhile. -/
  notified : Bool := false
  /-- `_same_value` -/
  same : Bool := true
  /-- The exception that the widget raises. -/
  error : Option String := none
  deriving DecidableEq, Repr

namespace WidgetDriver

def basis (d : WidgetDriver) : Basis := ⟨d.edits, d.heard, d.fingerprint⟩

/-- The observation that `_observation` makes after it has counted it. -/
def observation (d : WidgetDriver) : Transport.Observation Nat :=
  match d.value with
  | .none => { ws := d.ws, fingerprint := none, checksum := .absent, noValue := true }
  | .unreadable reason =>
    { ws := d.ws, fingerprint := some d.fingerprint, checksum := .invalid, reason }
  | .value checksum =>
    { ws := d.ws, fingerprint := some d.fingerprint, checksum := .value checksum }

/-- The value is observed. -/
def observe (d : WidgetDriver) : WidgetDriver × WidgetMessage :=
  let d := { d with ws := d.ws + 1 }
  (d, ⟨.observed d.observation, d.basis⟩)

/-- The driver tells how a delivery went. -/
def acknowledge (ack : DeliveryAck Nat) (d : WidgetDriver) : WidgetMessage := ⟨.delivered ack, d.basis⟩

/-- `_changed`, when the driver is not writing: the callback of an edit. -/
def changed (d : WidgetDriver) : WidgetDriver :=
  if d.closed then d
  else { d with
    fingerprint := d.fingerprint + 1, editGeneration := d.editGeneration + 1, pendingChange := true
    timer := some (d.editGeneration + 1), heard := d.heard + 1 }

/-- `_debounced_poll`, up to its poll: does the timer of a generation have something to read? -/
def debounced (generation : Nat) (d : WidgetDriver) : WidgetDriver × Bool :=
  if d.timer ≠ some generation then (d, false)
  else
    ({ d with timer := none },
      !d.closed && generation = d.editGeneration && d.pendingChange)

/-- `read` of `poll`; a poll by the timer names its generation. -/
def read (generation : Option Nat) (d : WidgetDriver) : WidgetDriver × List WidgetMessage :=
  if d.closed then (d, [])
  else if generation.isSome ∧ (generation ≠ some d.editGeneration ∨ !d.pendingChange) then (d, [])
  else
    let (d, message) := { d with pendingChange := false }.observe
    (d, [message])

/-- `request_cut` -/
def cut (id : Nat) (d : WidgetDriver) : WidgetDriver × List WidgetMessage :=
  let d := { d with timer := none }
  if d.closed then (d, [])
  else
    let (d, message) := { d with pendingChange := false }.observe
    (d, [message, ⟨.cut id d.ws, d.basis⟩])

/-- `close` of `unregister` -/
def close (d : WidgetDriver) : WidgetDriver :=
  { d with timer := none, pendingChange := false, closed := true }

/-- A delivery fails. -/
def fail (delivery : Delivery Nat) (reason : String) (d : WidgetDriver) :
    DeliveryOutcome × WidgetDriver × List WidgetMessage :=
  (.error, d, [d.acknowledge { seq := delivery.seq, ws := d.ws, outcome := .error, reason }])

/-- The end of `write`, when nothing has changed: the widget is overwritten. -/
def overwrite (mode : Mode) (delivery : Delivery Nat) (setting : Setting) (d : WidgetDriver) :
    DeliveryOutcome × WidgetDriver × List WidgetMessage :=
  let d := { d with value := setting.result }
  match setting.error with
  | some reason => d.fail delivery reason
  | none =>
    let fingerprint := if setting.notified then d.fingerprint + 1 else d.fingerprint
    let d := { d with fingerprint, ws := d.ws + 1 }
    let ack := d.acknowledge
      { seq := delivery.seq, ws := d.ws, outcome := .written, checksum := some delivery.checksum
        fingerprint := some d.fingerprint }
    if setting.notified && !setting.same && mode.senses then
      let (d, message) := d.observe
      (.written, d, [ack, message])
    else (.written, d, [ack])

/-- `write` of `deliver`. Without a setting, the value of the delivery cannot be resolved. -/
def write (mode : Mode) (delivery : Delivery Nat) (setting : Except String Setting)
    (d : WidgetDriver) : DeliveryOutcome × WidgetDriver × List WidgetMessage :=
  match setting with
  | .error reason => d.fail delivery reason
  | .ok setting =>
    if d.closed then d.fail delivery "RuntimeError: Widget session closed"
    else if d.pendingChange then
      let (d, message) := { d with timer := none, pendingChange := false }.observe
      (.conflict, d, [message,
        d.acknowledge { seq := delivery.seq, ws := d.ws, outcome := .conflict }])
    else if delivery.expectedFingerprint.any (· != d.fingerprint) then
      let ack := d.acknowledge { seq := delivery.seq, ws := d.ws, outcome := .conflict }
      let (d, message) := d.observe
      (.conflict, d, [ack, message])
    else d.overwrite mode delivery setting

end WidgetDriver

/-- What the service does for the driver, one after the other. -/
inductive WidgetJob
  | deliver (delivery : Delivery Nat) (basis : Basis)
  | read (generation : Option Nat)
  | cut (id : Nat)
  | close
  deriving DecidableEq, Repr

/-- A delivery that has been carried out, with what the session knew when it was dispatched and the
edits made until now. -/
structure Execution where
  delivery : Delivery Nat
  basis : Basis
  edits : Nat
  outcome : DeliveryOutcome
  before : WidgetValue
  after : WidgetValue
  told : List WidgetMessage
  deriving DecidableEq, Repr

/-- A session, its node and its widget. -/
structure WidgetSystem where
  driver : WidgetDriver
  session : Session Nat
  node : NodeView
  /-- What the fingerprint of the session comes from. -/
  basis : Basis
  detached : Bool := false
  now : Nat := 0
  jobs : List WidgetJob := []
  messages : List WidgetMessage := []
  executions : List Execution := []
  deriving DecidableEq, Repr

namespace WidgetSystem

inductive Event
  | elapse (duration : Nat)
  /-- The user sets the value of the widget. -/
  | edit (value : WidgetValue)
  /-- The callback of an edit runs. -/
  | notify
  | timer (generation : Nat)
  | poll
  | requestCut (id : Nat)
  /-- The service does the next job. -/
  | work (setting : Except String Setting)
  /-- The next message is processed. When it sets the root of the node, the node shows this after it. -/
  | receive (node : NodeView)
  /-- A turn after which the node shows this; it may have set the root of the node. -/
  | turn (node : NodeView) (rooted : Bool)
  | clearError
  | detach

/-- The session and its node, as a handler finds them. -/
def attached (x : WidgetSystem) : Attached Nat := { session := x.session, node := x.node }

/-- The end of a turn: the session looks at its node, and its deliveries go to the driver. -/
def endTurn (null : Checksum) (a : Attached Nat) (node : NodeView) (x : WidgetSystem) : WidgetSystem :=
  let a := Attached.afterTurn null x.now { a with node }
  { x with
    session := a.session, node
    jobs := x.jobs ++ a.effects.map fun delivery => .deliver delivery x.basis }

/-- The service does a job. -/
def work (setting : Except String Setting) (x : WidgetSystem) : Option WidgetSystem :=
  match x.jobs with
  | [] => none
  | .deliver delivery basis :: jobs =>
    let (outcome, driver, told) := x.driver.write x.session.spec.mode delivery setting
    let execution : Execution :=
      { delivery, basis, edits := x.driver.edits, outcome, before := x.driver.value
        after := driver.value, told }
    some { x with
      driver, jobs, messages := x.messages ++ told, executions := x.executions ++ [execution] }
  | .read generation :: jobs =>
    let (driver, told) := x.driver.read generation
    some { x with driver, jobs, messages := x.messages ++ told }
  | .cut id :: jobs =>
    let (driver, told) := x.driver.cut id
    some { x with driver, jobs, messages := x.messages ++ told }
  | .close :: jobs => some { x with driver := x.driver.close, jobs }

/-- A handler of a message has run. The session has a new fingerprint if it has counted the message. -/
def heed (a : Attached Nat) (basis : Basis) (x : WidgetSystem) : WidgetSystem :=
  { x with basis := if a.session.processedWs = x.session.processedWs then x.basis else basis }

/-- A message is processed. -/
def receive (null : Checksum) (node : NodeView) (x : WidgetSystem) : Option WidgetSystem :=
  match x.messages with
  | [] => none
  | message :: messages =>
    let x := { x with messages }
    if x.detached then some x
    else
      match message.report with
      | .observed o =>
        let a := x.attached.observed x.now o
        let node := if a.root.isSome then node else x.node
        some ((x.heed a message.basis).endTurn null a node)
      | .delivered ack =>
        let a := x.attached.delivered null x.now ack
        some ((x.heed a message.basis).endTurn null a x.node)
      | .cut _ _ => some (x.endTurn null x.attached x.node)

def step (null : Checksum) (x : WidgetSystem) : Event → Option WidgetSystem
  | .elapse duration => some { x with now := x.now + duration }
  | .edit value => some { x with driver := { x.driver with value, edits := x.driver.edits + 1 } }
  | .notify =>
    if x.driver.heard < x.driver.edits then some { x with driver := x.driver.changed } else none
  | .timer generation =>
    let (driver, due) := x.driver.debounced generation
    some { x with driver, jobs := if due then x.jobs ++ [.read (some generation)] else x.jobs }
  | .poll => some { x with
      driver := { x.driver with timer := none }, jobs := x.jobs ++ [.read none] }
  | .requestCut id => some { x with jobs := x.jobs ++ [.cut id] }
  | .work setting => x.work setting
  | .receive node => x.receive null node
  | .turn node rooted =>
    if x.detached then none
    else
      let s := if rooted then { x.session with senseError := none } else x.session
      some (x.endTurn null { x.attached with session := s } node)
  | .clearError => if x.detached then none else some (x.endTurn null x.attached.clearError x.node)
  | .detach => some { x with detached := true, jobs := x.jobs ++ [.close] }

/-- A widget with this value is attached to a node. -/
def start (null : Checksum) (value : WidgetValue) (nodePath : NodePath) (spec : Spec)
    (node rooted : NodeView) : Except String WidgetSystem := do
  let (driver, message) := ({ value } : WidgetDriver).observe
  let a ← attach null 0 nodePath spec false node driver.observation
  let x : WidgetSystem := { driver, session := a.session, node, basis := message.basis }
  pure (x.endTurn null a (if a.root.isSome then rooted else node))

end WidgetSystem

end Mount

end SeamlessWorkflow
