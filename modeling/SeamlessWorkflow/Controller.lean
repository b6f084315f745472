import SeamlessWorkflow.Library.Transition

/-!
# The controller of a Context

Messages are offered from any thread. The controller thread takes them one at a time, runs each as a
turn of the Context and completes its reply; a failed turn of class 5 poisons the controller first.
What other threads do falls between any two steps of it.
-/

namespace SeamlessWorkflow

/-- `ContextMessage`, as far as the controller looks at it. -/
structure ContextMessage where
  sequence : Nat
  klass : Nat
  operation : String
  deriving DecidableEq, Repr

/-- How a reply is completed. -/
inductive Reply
  | result
  | error
  deriving DecidableEq, Repr

/-- What the controller thread has in hand. -/
inductive Hand
  | idle
  /-- Taken off the queue. -/
  | taken (message : ContextMessage)
  /-- The turn has raised, and the failure is still to be handled. -/
  | failing (message : ContextMessage)
  /-- The reply is to be completed. -/
  | replying (message : ContextMessage) (reply : Reply)
  deriving DecidableEq, Repr

def Hand.messages : Hand → List ContextMessage
  | .idle => []
  | .taken message | .failing message | .replying message _ => [message]

/-- `Controller`. The last three fields only record what has happened. -/
structure Controller where
  queue : List ContextMessage := []
  sequence : Nat := 0
  accepting : Bool := true
  stopped : Bool := false
  failure : Bool := false
  /-- Is the Context still there? -/
  context : Bool := true
  hand : Hand := .idle
  /-- The messages that `stop` has taken off the queue and still has to reject. -/
  pending : List ContextMessage := []
  accepted : List ContextMessage := []
  /-- The messages whose operation has run, and whether the controller had failed before. -/
  executed : List (ContextMessage × Bool) := []
  replies : List (Nat × Reply) := []
  deriving DecidableEq, Repr

namespace Controller

/-- The operations that run after a failure. -/
def closingOperations : List String :=
  ["_begin_close", "_finish_close", "_mount_close_busy", "_mount_close_wait", "_mount_close_finish",
    "_mount_delivered", "_mount_cut"]

/-- `enqueue`: the sequence number of the message, when it is accepted. -/
def enqueue (c : Controller) (operation : String) (klass : Nat) (isInternal : Bool) :
    Option Nat × Controller :=
  if c.failure && !isInternal then (none, c)
  else if c.stopped || (!c.accepting && !isInternal) then (none, c)
  else
    let message : ContextMessage := ⟨c.sequence + 1, klass, operation⟩
    (some message.sequence,
      { c with
        sequence := message.sequence
        queue := c.queue ++ [message]
        accepted := c.accepted ++ [message] })

/-- Complete a reply, unless it is done. -/
def complete (c : Controller) (message : ContextMessage) (reply : Reply) : Controller :=
  if c.replies.any fun entry => entry.1 = message.sequence then c
  else { c with replies := c.replies ++ [(message.sequence, reply)] }

/-- `poison`, up to `_begin_close`. -/
def poison (c : Controller) : Controller :=
  if c.failure then c else { c with failure := true, accepting := false }

/-- How the code of a turn behaves: the operation, what follows it in `_after_turn`, and what is
published. -/
structure TurnOutcome where
  /-- The operation poisons the controller itself. -/
  poisons : Bool
  raises : Bool
  deriving DecidableEq, Repr

/-- The middle of `_drain`: run the operation of a message that has been taken. -/
def runTaken (c : Controller) (message : ContextMessage) (outcome : TurnOutcome) : Controller :=
  if !c.context then { c with hand := .replying message .error }
  else if c.failure && !closingOperations.contains message.operation then
    { c with hand := .failing message }
  else
    let ran := { c with executed := c.executed ++ [(message, c.failure)] }
    let ran := if outcome.poisons then ran.poison else ran
    { ran with hand := if outcome.raises then .failing message else .replying message .result }

/-- Does the failure of this message poison the controller? -/
def poisonsNow (c : Controller) (message : ContextMessage) : Bool :=
  message.klass = 5 && !c.failure

/-- The end of `_drain` after an exception. `poison` ends with `_begin_close`; when that raises, the
reply is not reached. -/
def handleFailure (c : Controller) (message : ContextMessage) (closeRaises : Bool) : Controller :=
  if c.poisonsNow message then
    { c.poison with hand := if closeRaises then .idle else .replying message .error }
  else { c with hand := .replying message .error }

/-- The steps of the controller thread and of other threads. -/
inductive Event
  | enqueue (operation : String) (klass : Nat) (isInternal : Bool)
  /-- The first half of `begin_close`; it goes on to enqueue `_begin_close`. -/
  | beginClose
  /-- `_drain` takes a message off the queue. -/
  | take
  | runTurn (outcome : TurnOutcome)
  | handle (closeRaises : Bool)
  | reply
  /-- The last reference to the Context is dropped. -/
  | loseContext
  /-- `stop` takes over the queue. -/
  | stop
  /-- `stop` rejects a message that it has taken over. -/
  | reject
  deriving DecidableEq, Repr

def step (c : Controller) : Event → Option Controller
  | .enqueue operation klass isInternal => some (c.enqueue operation klass isInternal).2
  | .beginClose => some { c with accepting := false }
  | .take =>
    match c.hand, c.queue with
    | .idle, message :: queue => some { c with queue := queue, hand := .taken message }
    | _, _ => none
  | .runTurn outcome =>
    match c.hand with
    | .taken message => some (c.runTaken message outcome)
    | _ => none
  | .handle closeRaises =>
    match c.hand with
    | .failing message => some (c.handleFailure message closeRaises)
    | _ => none
  | .reply =>
    match c.hand with
    | .replying message reply => some { c.complete message reply with hand := .idle }
    | _ => none
  | .loseContext => some { c with context := false }
  | .stop => some { c with
      accepting := false, stopped := true, pending := c.pending ++ c.queue, queue := [] }
  | .reject =>
    match c.pending with
    | message :: pending => some { c.complete message .error with pending := pending }
    | [] => none

/-- The accepted messages whose reply some step still has to complete. -/
def owed (c : Controller) : List ContextMessage := c.queue ++ c.hand.messages ++ c.pending

/-- How many times the reply to a message has been completed. -/
def completions (c : Controller) (message : ContextMessage) : Nat :=
  (c.replies.map Prod.fst).count message.sequence

/-- `stop` has returned. -/
def Ended (c : Controller) : Prop := c.stopped = true ∧ c.hand = .idle ∧ c.pending = []

instance (c : Controller) : Decidable c.Ended := inferInstanceAs (Decidable (_ ∧ _ ∧ _))

end Controller

end SeamlessWorkflow
