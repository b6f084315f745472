import SeamlessWorkflow.Graph.Nodes

/-!
# Transport messages

What a mount driver and the controller tell each other. A fingerprint says which state of the external
side a message is about; each driver has its own kind.
-/

namespace SeamlessWorkflow

namespace Transport

/-- What the external side of an attachment holds: a value, nothing, or something unreadable. -/
inductive External
  | absent
  | invalid
  | value (checksum : Checksum)
  deriving DecidableEq, Repr

/-- `Observation`, without the claims on its buffers. -/
structure Observation (φ : Type) where
  ws : Nat
  fingerprint : Option φ
  checksum : External
  reason : String := ""
  noValue : Bool := false
  needsCanonicalWrite : Bool := false
  deriving DecidableEq, Repr

/-- `Delivery`, without the claim on its value. -/
structure Delivery (φ : Type) where
  seq : Nat
  checksum : Checksum
  expectedFingerprint : Option φ
  force : Bool := false
  deriving DecidableEq, Repr

/-- How a delivery went. -/
inductive DeliveryOutcome
  | written
  | conflict
  | error
  deriving DecidableEq, Repr

/-- `DeliveryAck` -/
structure DeliveryAck (φ : Type) where
  seq : Nat
  ws : Nat
  outcome : DeliveryOutcome
  checksum : Option Checksum := none
  fingerprint : Option φ := none
  reason : String := ""
  deriving DecidableEq, Repr

end Transport

end SeamlessWorkflow
