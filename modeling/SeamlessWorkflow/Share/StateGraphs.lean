import SeamlessWorkflow.Share.Server

/-!
# State graphs of namespaces

A Context publishes its state graph in a turn of its own, with a marker. The server fetches publications
through the provider of the Context that a namespace belongs to, in worker threads, and installs what it
has fetched on its event loop, with a marker of the namespace.
-/

namespace SeamlessWorkflow

/-- What `_publish_state_graph` returns, and what a namespace shows. -/
structure StatePublication where
  marker : Nat
  digest : Checksum
  body : String
  deriving DecidableEq, Repr

/-- `STATE_GRAPH_INTERVAL`, in nanoseconds -/
def stateGraphInterval : Nat := 500000000

/-- The future of a `_state_graph_refresh` that has been submitted. -/
inductive Refresh
  | pending
  | done (publication : StatePublication)
  /-- The Context has closed. -/
  | closed
  | failed
  deriving DecidableEq, Repr

/-- A Context, as its `_state_graph_provider` looks at it. -/
structure GraphSource where
  published : Option StatePublication := none
  publishedAt : Nat := 0
  dirty : Bool := true
  closing : Bool := false
  /-- `_state_graph_inflight` -/
  inflight : Option Refresh := none
  /-- The fetch that has `_state_graph_lock`. -/
  holder : Option Nat := none
  deriving DecidableEq, Repr

/-- `_publish_state_graph` -/
def GraphSource.publish (sha256 : String → Checksum) (body : String) (c : GraphSource) :
    StatePublication :=
  let digest := sha256 body
  match c.published with
  | none => { marker := 1, digest, body }
  | some previous =>
    { marker := if previous.digest ≠ digest then previous.marker + 1 else previous.marker, digest, body }

/-- How far the call of a provider is. -/
inductive ProviderCall
  /-- It does not have the lock yet. -/
  | called
  /-- It has the lock and waits for the refresh. -/
  | waiting
  | raised (timedOut : Bool)
  | returned (publication : Option StatePublication)
  deriving DecidableEq, Repr

/-- A state graph that the server fetches, for a request or in `_state_graph_tick`. -/
structure GraphFetch where
  name : String
  /-- The namespace that it was started for. -/
  entry : Nat
  context : Nat
  forTick : Bool
  closing : Bool
  cached : Option StatePublication
  call : ProviderCall := .called
  /-- How many publications the providers had returned before this call returned. -/
  turn : Nat := 0
  /-- Does the event loop still wait for it? -/
  awaited : Bool := true
  deriving DecidableEq, Repr

/-- How a request for a state graph is answered. -/
inductive GraphAnswer
  | graph (publication : StatePublication)
  | noSuchShare
  | timedOut
  | failed
  deriving DecidableEq, Repr

def GraphAnswer.status : GraphAnswer → Nat
  | .graph _ => 200
  | .noSuchShare => 404
  | .timedOut | .failed => 503

/-- A publication that has been installed: the one before it, the one that the Context gave and what
has become of it. -/
structure GraphInstallation where
  entry : Nat
  context : Nat
  turn : Nat
  before : Option StatePublication
  source : StatePublication
  after : StatePublication
  deriving DecidableEq, Repr

/-- What `_normalize_state_graph_publication` installs. -/
def normalizePublication (previous : Option StatePublication) (publication : StatePublication) :
    StatePublication :=
  match previous with
  | none => publication
  | some previous =>
    if previous.digest = publication.digest then { publication with marker := previous.marker }
    else { publication with marker := previous.marker + 1 }

/-- The server with the state graphs of its namespaces, which are given by their identity. -/
structure GraphServer where
  server : ShareServer := .initial
  /-- `state_graph`: the Context whose provider it is. -/
  providers : Nat → Option Nat := fun _ => none
  /-- `state_graph_publication` -/
  publications : Nat → Option StatePublication := fun _ => none
  sources : Nat → GraphSource := fun _ => {}
  fetches : List GraphFetch := []
  answers : List GraphAnswer := []
  /-- How many publications the providers have returned. -/
  returns : Nat := 0
  installations : List GraphInstallation := []

namespace GraphServer

inductive Event
  /-- A step of the server that does not concern state graphs. -/
  | server (event : ShareServer.Event)
  /-- A request for the state graph of a namespace. -/
  | get (name : String)
  | tick (name : String)
  /-- A provider gets the lock; the controller of the Context may have stopped accepting messages. -/
  | enter (fetch : Nat) (accepting : Bool)
  /-- The refresh that a provider waits for is done. -/
  | resume (fetch : Nat)
  | giveUp (fetch : Nat)
  /-- The event loop gets what a provider has returned or raised. -/
  | finish (fetch : Nat)
  /-- It does not wait any longer. -/
  | abandon (fetch : Nat)
  /-- A turn of a Context that is not a refresh. -/
  | turn (context : Nat)
  | refresh (context : Nat) (body : String)
  /-- The refresh of a Context fails, or its controller rejects it. -/
  | refuse (context : Nat) (closed : Bool)
  | beginClose (context : Nat)

/-- The provider that the shares of an owner come with. -/
def providerOf : Owner → Option Nat
  | .context c => some c
  | .anonymous _ => none

/-- A namespace of this name gets a provider. -/
def provide (server : ShareServer) (name : String) (provider : Option Nat)
    (providers : Nat → Option Nat) : Nat → Option Nat :=
  match server.namespaces.lookup name with
  | none => providers
  | some ns => Function.update providers ns.id provider

/-- What a step of the server does to the providers of the namespaces. -/
def providersAfter (s : GraphServer) (server : ShareServer) : ShareServer.Event → Nat → Option Nat
  | .reserve name spec owner replaces staged =>
    match s.server.reserve name spec owner replaces staged, owner.bind providerOf with
    | .ok _, some c => if staged then s.providers else provide server name (some c) s.providers
    | _, _ => s.providers
  | .commitReservations registrations =>
    match (s.server.commitReservations registrations).1 with
    | .ok () => registrations.foldl (fun providers r =>
        let reg := s.server.registrations r
        match providerOf reg.owner with
        | some c => provide server reg.inNamespace (some c) providers
        | none => providers) s.providers
    | .error _ => s.providers
  | .holdNamespace name owner _ =>
    if s.server.started && (s.server.namespaces.lookup name).any (·.owner == owner) then
      provide server name none s.providers
    else s.providers
  | _ => s.providers

/-- What a request is answered with when nothing has been fetched. -/
def fallback (closing : Bool) (cached : Option StatePublication) : GraphAnswer :=
  match closing, cached with
  | true, some publication => .graph publication
  | _, _ => .noSuchShare

/-- A fetch starts, unless the namespace has no provider. -/
def startFetch (s : GraphServer) (name : String) (forTick : Bool) : GraphServer :=
  match s.server.namespaces.lookup name with
  | none => if forTick then s else { s with answers := s.answers ++ [.noSuchShare] }
  | some ns =>
    let closing := ns.closing || !ns.ownerActive || ns.holdUntil.isSome
    let cached := s.publications ns.id
    match s.providers ns.id with
    | none => if forTick then s else { s with answers := s.answers ++ [fallback closing cached] }
    | some context =>
      { s with fetches := s.fetches ++ [{ name, entry := ns.id, context, forTick, closing, cached }] }

/-- Change a source in place. -/
def modifySource (s : GraphServer) (c : Nat) (f : GraphSource → GraphSource) : GraphServer :=
  { s with sources := Function.update s.sources c (f (s.sources c)) }

/-- Change a fetch in place. -/
def modifyFetch (s : GraphServer) (i : Nat) (f : GraphFetch → GraphFetch) : GraphServer :=
  { s with fetches := s.fetches.modify i f }

/-- A provider returns. -/
def giveBack (s : GraphServer) (i : Nat) (publication : Option StatePublication) : GraphServer :=
  { s.modifyFetch i fun f => { f with call := .returned publication, turn := s.returns } with
    returns := s.returns + 1 }

/-- `_state_graph_provider`, up to the wait for the refresh. -/
def enter (s : GraphServer) (i c : Nat) (accepting : Bool) : Option GraphServer :=
  let source := s.sources c
  if source.closing then some (s.giveBack i none)
  else if source.holder.isSome then none
  else
    let wait (inflight : Refresh) : GraphServer :=
      (s.modifySource c fun source => { source with inflight := some inflight, holder := some i }
        ).modifyFetch i fun f => { f with call := .waiting }
    match source.inflight with
    | some refresh => some (wait refresh)
    | none =>
      let old := source.dirty && decide (stateGraphInterval ≤ s.server.now - source.publishedAt)
      if source.published.isSome && !old then some (s.giveBack i source.published)
      else if accepting then some (wait .pending)
      else some (s.giveBack i none)

/-- The rest of `_state_graph_provider`, when the refresh is done. -/
def resume (s : GraphServer) (i c : Nat) : Option GraphServer :=
  let source := s.sources c
  let s' := s.modifySource c fun source => { source with inflight := none, holder := none }
  match source.inflight with
  | some (.done publication) =>
    some (s'.giveBack i (if source.closing then none else some publication))
  | some .closed => some (s'.giveBack i none)
  | some .failed => some (s'.modifyFetch i fun f => { f with call := .raised false })
  | _ => none

/-- The wait for the refresh times out. A refresh that is not done is waited for by the next call. -/
def giveUp (s : GraphServer) (i c : Nat) : GraphServer :=
  (s.modifySource c fun source =>
    { source with
      holder := none, inflight := if source.inflight = some .pending then some .pending else none }
    ).modifyFetch i fun f => { f with call := .raised true }

/-- A request is answered; a tick is not a request. -/
def answer (s : GraphServer) (f : GraphFetch) (answer : GraphAnswer) : GraphServer :=
  if f.forTick then s else { s with answers := s.answers ++ [answer] }

/-- `_normalize_state_graph_publication` -/
def normalize (s : GraphServer) (f : GraphFetch) (publication : StatePublication) :
    StatePublication × GraphServer :=
  if (s.server.namespaces.lookup f.name).any (·.id == f.entry) then
    let normalized := normalizePublication (s.publications f.entry) publication
    (normalized, { s with
      publications := Function.update s.publications f.entry (some normalized)
      installations := s.installations ++
        [{ entry := f.entry, context := f.context, turn := f.turn, before := s.publications f.entry
           source := publication, after := normalized }] })
  else (publication, s)

/-- The event loop goes on with what has been fetched. -/
def finish (s : GraphServer) (f : GraphFetch) : Option GraphServer :=
  match f.call with
  | .returned (some publication) =>
    let (normalized, s) := s.normalize f publication
    some (s.answer f (.graph normalized))
  | .returned none => some (s.answer f (fallback f.closing f.cached))
  | .raised timedOut => some (s.answer f
      (if f.closing then fallback true f.cached else if timedOut then .timedOut else .failed))
  | _ => none

def step (sha256 : String → Checksum) (s : GraphServer) : Event → Option GraphServer
  | .server event => (s.server.step event).map fun server =>
      { s with server, providers := s.providersAfter server event }
  | .get name => some (s.startFetch name false)
  | .tick name => some (s.startFetch name true)
  | .enter i accepting =>
    match s.fetches[i]? with
    | some { call := .called, context, .. } => s.enter i context accepting
    | _ => none
  | .resume i =>
    match s.fetches[i]? with
    | some { call := .waiting, context, .. } => s.resume i context
    | _ => none
  | .giveUp i =>
    match s.fetches[i]? with
    | some { call := .waiting, context, .. } => some (s.giveUp i context)
    | _ => none
  | .finish i =>
    match s.fetches[i]? with
    | some f =>
      if f.awaited then (s.modifyFetch i fun f => { f with awaited := false }).finish f else none
    | none => none
  | .abandon i =>
    match s.fetches[i]? with
    | some f =>
      if f.awaited then
        some ((s.modifyFetch i fun f => { f with awaited := false }).answer f
          (if f.closing then fallback true f.cached else .timedOut))
      else none
    | none => none
  | .turn c => some (s.modifySource c fun source => { source with dirty := true })
  | .refresh c body =>
    if (s.sources c).inflight = some .pending then
      let publication := (s.sources c).publish sha256 body
      some (s.modifySource c fun source =>
        { source with
          published := some publication, publishedAt := s.server.now, dirty := false
          inflight := some (.done publication) })
    else none
  | .refuse c closed =>
    if (s.sources c).inflight = some .pending then
      some (s.modifySource c fun source =>
        { source with dirty := true, inflight := some (if closed then .closed else .failed) })
    else none
  | .beginClose c => some (s.modifySource c fun source => { source with closing := true })

end GraphServer

end SeamlessWorkflow
