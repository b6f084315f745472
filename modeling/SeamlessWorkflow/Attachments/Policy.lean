import SeamlessWorkflow.Attachments.Session

/-!
# Mount policy

What the controller does with what a driver reports. The comparisons are on checksums and fingerprints
only.
-/

namespace SeamlessWorkflow

namespace Mount

open Transport

/-- `mode` -/
inductive Mode
  | r
  | w
  | rw
  deriving DecidableEq, Repr

/-- `'r' in mode` -/
def Mode.senses : Mode → Bool
  | .w => false
  | _ => true

/-- `'w' in mode` -/
def Mode.writes : Mode → Bool
  | .r => false
  | _ => true

inductive Authority
  | file
  | cell
  | fileStrict
  deriving DecidableEq, Repr

inductive Driver
  | file
  | share
  | widget
  deriving DecidableEq, Repr

/-- What a session reads of its `AttachmentSpec` or `ShareSpec`. -/
structure Spec where
  path : String
  mode : Mode := .rw
  authority : Authority := .file
  persistent : Bool := true
  driver : Driver := .file
  strict : authority = .fileStrict → mode.senses = true ∧ persistent = true := by decide
  deriving DecidableEq, Repr

/-- What to do with the first observation of a session. -/
inductive InitialAction
  | nothing
  | error
  | senseNullError
  | senseNull
  | sense
  | write
  deriving DecidableEq, Repr

/-- `decide_initial`. Without a checksum, the node is incomplete. -/
def decideInitial (spec : Spec) (disk : External) (node : Option Checksum) (noValue nodeIsNull : Bool) :
    InitialAction :=
  match node with
  | none =>
    if !spec.mode.senses then .nothing
    else if disk = .invalid then .error
    else if disk = .absent ∧ spec.authority = .fileStrict then .senseNullError
    else if noValue ∨ disk = .absent then .senseNull
    else .sense
  | some node =>
    if disk = .absent ∨ noValue then
      if disk = .absent ∧ spec.authority = .fileStrict then .error
      else if nodeIsNull then .nothing
      else if spec.mode.writes then .write
      else .nothing
    else if spec.mode = .w then
      if disk ≠ .value node then .write else .nothing
    else if spec.authority = .cell then
      if spec.mode.writes ∧ disk ≠ .value node then .write else .nothing
    else if disk = .invalid then .error
    else if disk ≠ .value node then .sense
    else .nothing

/-- How an observation is classified. -/
inductive Classification
  | stale
  | unchanged
  | rejected
  | absent
  | echo
  | foreign
  deriving DecidableEq, Repr

/-- `classify_observation` -/
def classifyObservation {φ : Type} [DecidableEq φ] (ws processedWs : Nat) (checksum disk : External)
    (inFlight : Option Checksum) (fingerprint diskFingerprint : Option φ) : Classification :=
  if ws ≤ processedWs then .stale
  else if checksum = disk ∧
      ((checksum ≠ .absent ∧ checksum ≠ .invalid) ∨ fingerprint = diskFingerprint) then .unchanged
  else if checksum = .invalid then .rejected
  else if checksum = .absent then .absent
  else if some checksum = inFlight.map External.value then .echo
  else .foreign

/-- `reassert` -/
def reassert (mode : Mode) (state : NodeState) (classification : Classification) : Bool :=
  mode = .w && state = .complete &&
    (classification = .foreign || classification = .rejected || classification = .absent)

/-- A second of `time.monotonic()`, in thirds of a nanosecond. -/
def second : Nat := 3000000000

/-- `detector`: three reasserts in 20 seconds. -/
def detector (timestamps : List Nat) (now : Nat) : List Nat × Bool :=
  let recent := timestamps.filter (fun t => now - t ≤ 20 * second) ++ [now]
  (recent, 3 ≤ recent.length)

/-- `DELIVERY_INTERVAL` -/
def deliveryInterval : Nat := 2 * second / 3

end Mount

end SeamlessWorkflow
