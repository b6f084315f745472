import SeamlessWorkflow.Library.Feed
import SeamlessWorkflow.Share.Server

/-!
# The update stream

The clients of a namespace are told its list of shares and the values that are installed. A client that
joins is sent a snapshot first; what is broadcast meanwhile is queued for it. Each message to a client
is a step of its own.
-/

namespace SeamlessWorkflow

/-- What a client is told: a handshake, lists of shares with their markers and checksums, and updates of
single shares. -/
abbrev UpdateMessage := Feed.Message (List String) (Option Checksum)

/-- `_snapshot`, for the namespace of this name -/
def ShareServer.listing (s : ShareServer) (name : String) : Feed.View (List String) (Option Checksum) :=
  fun key => ((s.recordOf name key).filter s.serves).map fun r =>
    ((s.registrations r).marker, (s.registrations r).checksum)

/-- How far `_websocket` is with a client. -/
inductive ClientPhase
  /-- The handshake is being sent. -/
  | greeting
  /-- The first snapshot is being sent. -/
  | listing
  /-- What has been queued is being sent. -/
  | flushing
  | listening
  deriving DecidableEq, Repr

/-- `initializing` -/
def ClientPhase.initializing : ClientPhase → Bool
  | .greeting | .listing => true
  | _ => false

/-- `_WsClient`, with the namespace whose client it is and what it has received. -/
structure UpdateClient where
  name : String
  entry : Nat
  phase : ClientPhase := .greeting
  pending : List UpdateMessage := []
  received : List UpdateMessage := []
  connected : Bool := true

/-- A call of `_broadcast_shares` or `_broadcast_update`, with the clients it has not come to. -/
structure UpdateBroadcast where
  message : UpdateMessage
  clients : List Nat

structure UpdateServer where
  server : ShareServer := .initial
  clients : List UpdateClient := []
  /-- The broadcasts, in the order in which their messages were made. -/
  broadcasts : List UpdateBroadcast := []
  /-- How many snapshots have been made. -/
  snapshots : Nat := 0

namespace UpdateServer

inductive Event
  /-- A step of the server. Whether the clients are told of it may depend on what is left out here: the
  flags that a re-attachment changes, and whether a call of `_unregister` closes the namespace. -/
  | server (event : ShareServer.Event) (tells : Bool)
  /-- A client joins a namespace. -/
  | connect (name : String)
  /-- The handshake has been sent. -/
  | greeted (client : Nat)
  /-- The first snapshot has been sent. -/
  | listed (client : Nat)
  /-- `_websocket` goes on with what has been queued. -/
  | flush (client : Nat)
  /-- A broadcast comes to a client. -/
  | send (broadcast client : Nat)
  | disconnect (client : Nat)

/-- What a step of the server broadcasts. -/
inductive Announcement
  | shares
  | update (registration : Nat)
  deriving DecidableEq, Repr

/-- The broadcast that a step of the server ends with, and the namespace whose clients are told. -/
def announcement (s : ShareServer) (tells : Bool) :
    ShareServer.Event → Option (String × Announcement)
  | .activate r =>
    let reg := s.registrations r
    if reg.closed || reg.reattachedFrom.isSome then none else some (reg.inNamespace, .shares)
  | .completeReattach r =>
    let reg := s.registrations r
    if reg.closed || reg.reattachedFrom.isNone || !tells then none
    else some (reg.inNamespace, .shares)
  | .deliver r seq checksum expectedFingerprint =>
    let reg := s.registrations r
    if (s.deliver r seq checksum expectedFingerprint).1.outcome = .written ∧ checksum ≠ reg.checksum then
      some (reg.inNamespace, .update r)
    else none
  | .installPut i value =>
    match s.puts[i]? with
    | some { state := .ready r, marker } =>
      let reg := s.registrations r
      match (s.installPut r marker value).2 with
      | .ok _ _ => if value ≠ reg.checksum then some (reg.inNamespace, .update r) else none
      | _ => none
    | _ => none
  | .expireHolds name =>
    match s.namespaces.lookup name with
    | some ns => if ns.holdTask && !(s.expired ns).isEmpty then some (name, .shares) else none
    | none => none
  | .removeNext task =>
    match s.unregistering[task]? with
    | some { registration, rest := r :: _, closes := none } =>
      let name := (s.registrations registration).inNamespace
      if tells && (s.registrations r).active &&
          (s.namespaces.lookup name).any (·.owner == (s.registrations r).owner) then
        some (name, .shares)
      else none
    | _ => none
  | _ => none

/-- The message of a broadcast, which is made before the first client is told. -/
def announce (server : ShareServer) (name : String) (stamp : Nat) : Announcement → UpdateMessage
  | .shares => .snapshot stamp (server.listing name)
  | .update r =>
    let reg := server.registrations r
    .update reg.spec.path (reg.marker, reg.checksum)

/-- The connection of a client stays open: its namespace is there and is not being closed. -/
def staysOpen (server : ShareServer) (c : UpdateClient) : Bool :=
  (server.namespaces.lookup c.name).any (·.id == c.entry) &&
    !server.unregistering.any (·.closes == some c.entry)

/-- `tuple(ns.clients)` -/
def clientsOf (clients : List UpdateClient) (name : String) : List Nat :=
  (List.range clients.length).filter fun i =>
    clients[i]?.any fun c => c.connected && c.name == name

/-- Change a client in place. -/
def modifyClient (x : UpdateServer) (i : Nat) (f : UpdateClient → UpdateClient) : UpdateServer :=
  { x with clients := x.clients.modify i f }

/-- A step of the server, with the broadcast that it starts. -/
def serve (x : UpdateServer) (event : ShareServer.Event) (tells : Bool) (server : ShareServer) :
    UpdateServer :=
  let clients := x.clients.map fun c => { c with connected := c.connected && staysOpen server c }
  match announcement x.server tells event with
  | none => { x with server, clients }
  | some (name, what) =>
    { x with
      server, clients, snapshots := x.snapshots + 1
      broadcasts := x.broadcasts ++
        [{ message := announce server name x.snapshots what, clients := clientsOf clients name }] }

/-- `_queue_or_send` -/
def queueOrSend (message : UpdateMessage) (c : UpdateClient) : UpdateClient :=
  if !c.connected then c
  else if c.phase.initializing then { c with pending := c.pending ++ [message] }
  else { c with received := c.received ++ [message] }

def step (x : UpdateServer) : Event → Option UpdateServer
  | .server event tells => (x.server.step event).map fun server => x.serve event tells server
  | .connect name =>
    if !x.server.started then none
    else
      match x.server.namespaces.lookup name with
      | none => none
      | some ns =>
        let c : UpdateClient := { name, entry := ns.id, received := [.greeting] }
        -- who joins while the namespace is being closed is forgotten with its other clients
        some { x with clients := x.clients ++ [{ c with connected := staysOpen x.server c }] }
  | .greeted i =>
    match x.clients[i]? with
    | some c =>
      if c.connected ∧ c.phase = .greeting then
        let message := .snapshot x.snapshots (x.server.listing c.name)
        some { x.modifyClient i fun c =>
            { c with phase := .listing, received := c.received ++ [message] } with
          snapshots := x.snapshots + 1 }
      else none
    | none => none
  | .listed i =>
    match x.clients[i]? with
    | some c =>
      if c.connected ∧ c.phase = .listing then
        some (x.modifyClient i fun c => { c with phase := .flushing })
      else none
    | none => none
  | .flush i =>
    match x.clients[i]? with
    | some c =>
      if c.connected ∧ c.phase = .flushing then
        match c.pending with
        | [] => some (x.modifyClient i fun c => { c with phase := .listening })
        | message :: pending =>
          some (x.modifyClient i fun c => { c with pending, received := c.received ++ [message] })
      else none
    | none => none
  | .send b i =>
    match x.broadcasts[b]? with
    | some broadcast =>
      if i ∈ broadcast.clients then
        some { x.modifyClient i (queueOrSend broadcast.message) with
          broadcasts := x.broadcasts.modify b fun broadcast =>
            { broadcast with clients := broadcast.clients.filter (· != i) } }
      else none
    | none => none
  | .disconnect i => some (x.modifyClient i fun c => { c with connected := false })

end UpdateServer

end SeamlessWorkflow
