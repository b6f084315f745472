import SeamlessWorkflow.Share.Server

/-!
# Answering a PUT

The handler of a PUT checks the request, installs the value in the record of its registration, and
hands it to the sink of the Context. It answers when the sink has.
-/

namespace SeamlessWorkflow

/-- A PUT request, as far as the handler looks at it before it looks at the value. -/
structure PutRequest where
  mode : Option String := none
  marker : Option String := none
  /-- The length of the body. -/
  size : Nat := 0
  deriving DecidableEq, Repr

/-- `int(marker)`, not negative, if `str(int(marker)) == marker`. -/
def parseMarker (text : String) : Option Nat :=
  let digits := text.toList
  let n := digits.foldl (fun n c => 10 * n + (c.toNat - '0'.toNat)) 0
  if digits.all Char.isDigit && Nat.toDigits 10 n == digits then some n else none

example : (parseMarker "70", parseMarker "07", parseMarker "") = (some 70, none, none) := by decide

/-- The marker that a request expects. -/
def PutRequest.expectedMarker (request : PutRequest) : Option Nat := request.marker.bind parseMarker

/-- How a request is answered. -/
inductive PutAnswer
  | response (response : PutResponse)
  | invalidMode
  | invalidMarker
  | tooLarge
  /-- The sink raises, or its reply is an exception. -/
  | sinkFailed
  | sinkTimedOut
  deriving DecidableEq, Repr

def PutAnswer.status : PutAnswer → Nat
  | .response (.ok _ _) => 200
  | .response (.conflict _ _) => 409
  | .response .methodNotAllowed => 405
  | .response .invalidValue => 422
  | .response .noSuchShare | .response .closing => 404
  | .response .timedOut | .sinkFailed | .sinkTimedOut => 503
  | .invalidMode | .invalidMarker => 400
  | .tooLarge => 413

/-- An error that is not a time-out. -/
def PutAnswer.refuses : PutAnswer → Bool
  | .response (.ok _ _) | .response .timedOut | .sinkTimedOut => false
  | _ => true

/-- The checks of the query, which precede the reading of the body. -/
def PutRequest.refusal (request : PutRequest) : Option PutAnswer :=
  if request.mode.any (· != "value") then some .invalidMode
  else if request.marker.isSome && request.expectedMarker.isNone then some .invalidMarker
  else none

/-- A step of a request, with the server before and after it. -/
structure PutStep where
  request : Nat
  before : ShareServer
  after : ShareServer

/-- The server with its requests, which are numbered as the PUTs of the server. -/
structure PutServer where
  server : ShareServer := .initial
  requests : List PutRequest := []
  /-- The answers that the server itself has not given. -/
  answers : List (Nat × PutAnswer) := []
  /-- What the requests have done. -/
  history : List PutStep := []

namespace PutServer

def put? (s : PutServer) (i : Nat) : Option PutState := (s.server.puts[i]?).map Put.state

/-- The answer to a request. A PUT whose value is installed waits for the sink. -/
def answer (s : PutServer) (i : Nat) : Option PutAnswer :=
  match s.answers.lookup i, s.put? i with
  | some answer, _ => some answer
  | none, some (.answered (.ok _ _)) => none
  | none, some (.answered response) => some (.response response)
  | none, _ => none

inductive Event
  /-- A step of the server that is not one of a PUT. -/
  | server (event : ShareServer.Event)
  | put (url : Route) (request : PutRequest)
  | resume (i : Nat)
  | timeout (i : Nat)
  /-- The body of a request has been read, and its value made canonical unless it is invalid. -/
  | readBody (i : Nat) (value : Option Checksum)
  /-- The sink has taken the value over, or has not. -/
  | sinkReplies (i : Nat)
  | sinkFails (i : Nat)
  | sinkTimeout (i : Nat)

/-- A request does a step. -/
def act (s : PutServer) (i : Nat) (event : ShareServer.Event) : Option PutServer :=
  (s.server.step event).map fun server =>
    { s with server, history := s.history ++ [⟨i, s.server, server⟩] }

def give (s : PutServer) (i : Nat) (answer : PutAnswer) : PutServer :=
  { s with answers := s.answers ++ [(i, answer)] }

/-- A request that has found a registration has its query checked. -/
def checkQuery (s : PutServer) (i : Nat) : PutServer :=
  match s.put? i, s.requests[i]? with
  | some (.ready _), some request =>
    match request.refusal with
    | some answer => s.give i answer
    | none => s
  | _, _ => s

/-- The response of a request whose value is installed and whose sink has not answered. -/
def awaitsSink (s : PutServer) (i : Nat) : Option PutAnswer :=
  match s.answers.lookup i, s.put? i with
  | none, some (.answered (.ok checksum marker)) => some (.response (.ok checksum marker))
  | _, _ => none

/-- Does an event of the server belong to a PUT? -/
def ofPut : ShareServer.Event → Bool
  | .put _ _ | .resumePut _ | .timeoutPut _ | .installPut _ _ => true
  | _ => false

def step (maxBodySize : Nat) (s : PutServer) : Event → Option PutServer
  | .server event =>
    if ofPut event then none else (s.server.step event).map fun server => { s with server }
  | .put url request =>
    let i := s.server.puts.length
    let received : PutServer := { s with requests := s.requests ++ [request] }
    (received.act i (.put url request.expectedMarker)).map fun s => s.checkQuery i
  | .resume i => (s.act i (.resumePut i)).map fun s => s.checkQuery i
  | .timeout i => s.act i (.timeoutPut i)
  | .readBody i value =>
    match s.answers.lookup i, s.put? i, s.requests[i]? with
    | none, some (.ready _), some request =>
      if maxBodySize < request.size then some (s.give i .tooLarge)
      else s.act i (.installPut i value)
    | _, _, _ => none
  | .sinkReplies i => (s.awaitsSink i).map fun answer => s.give i answer
  | .sinkFails i => (s.awaitsSink i).map fun _ => s.give i .sinkFailed
  | .sinkTimeout i => (s.awaitsSink i).map fun _ => s.give i .sinkTimedOut

end PutServer

end SeamlessWorkflow
