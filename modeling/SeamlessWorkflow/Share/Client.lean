import Mathlib.Data.List.Basic
import SeamlessWorkflow.Library.Transition

/-!
# The browser client

The client keeps one entry object for each share that the server lists. Snapshots and update messages of
the WebSocket, replies to its GETs and PUTs, and edits of the page change an entry, each under its own test
of what is stale. A marker is a finite number here; what is not one is absent.
-/

namespace SeamlessWorkflow

namespace Browser

/-- What a body is read as. -/
inductive Body
  | text (content : String)
  | blob (content : String)
  deriving DecidableEq, Repr

/-- A value of the page: `null`, or a body. -/
abbrev Value := Option Body

/-- A record of a snapshot. -/
structure Metadata where
  url : Option String := none
  checksum : Option String := none
  marker : Option Int := none
  binary : Bool := false
  contentType : Option String := none
  readonly : Bool := false
  deriving DecidableEq, Repr

/-- A local edit that is still to be written. -/
structure Operation where
  value : Value
  revision : Nat
  deriving DecidableEq, Repr

/-- Where `drainWrites` is; `writing` unless it is idle. -/
inductive Writer
  | idle
  /-- The PUT has been sent. -/
  | sent (operation : Operation) (requestMarker : Int) (requestServerRevision : Nat)
  /-- The body of its reply is being read. -/
  | reading (operation : Operation) (requestMarker : Int) (requestServerRevision : Nat)
  /-- The reply has been handled. -/
  | looping
  /-- A value is read after a conflict. -/
  | refreshing
  deriving DecidableEq, Repr

/-- Where the value of an entry is from. The client does not record this. -/
inductive Origin
  | none
  | edit (revision : Nat)
  | read (connection : Nat) (marker : Option Int)
  deriving DecidableEq, Repr

/-- An entry object; `pending` stands for `_hasPending` as well, and an absent value for `undefined`. -/
structure Entry where
  key : String
  url : Option String
  value : Option Value := .none
  checksum : Option String
  marker : Int
  serverRevision : Nat := 0
  binary : Bool
  contentType : String
  readonly : Bool
  autoRead : Bool
  serverRead : Bool := false
  readGeneration : Nat := 0
  ownPutMarker : Option Int := .none
  unresolvedDroppedChange : Bool := false
  localVersion : Nat := 0
  pending : Option Operation := .none
  writer : Writer := .idle
  origin : Origin := .none
  deriving DecidableEq, Repr

/-- A GET that has been started. -/
structure Read where
  object : Nat
  generation : Nat
  requestedMarker : Int
  deriving DecidableEq, Repr

/-- What a client is made of: `entries` names the current objects, in the order of the `Map`; the other
objects have been removed. -/
structure Client where
  objects : List Entry := []
  entries : List (String × Nat) := []
  sharelist : List String := []
  adoptRestartSnapshot : Bool := false
  /-- Every GET that has been started, and those without a reply. -/
  reads : List Read := []
  unanswered : List Read := []
  /-- The calls of `setValue` that are in their `oninput` handlers. -/
  edits : List (Nat × Operation) := []
  /-- The snapshots that have been the first ones of a connection after another one. -/
  connection : Nat := 0
  deriving DecidableEq, Repr

/-- `isCurrentEntry` -/
def Client.isCurrent (s : Client) (object : Nat) : Bool := s.entries.any fun entry => entry.2 == object

/-- `makeEntry` -/
def makeEntry (key : String) (metadata : Metadata) : Entry where
  key := key
  url := metadata.url
  checksum := metadata.checksum
  marker := metadata.marker.getD 0
  binary := metadata.binary
  contentType := metadata.contentType.getD "application/octet-stream"
  readonly := metadata.readonly
  autoRead := !key.toList.contains '.'

/-- An own PUT marker that a marker reaches is forgotten. -/
def forgetOwn (own : Option Int) (marker : Int) : Option Int := own.filter fun own => marker < own

def Client.modify (s : Client) (object : Nat) (f : Entry → Entry) : Client :=
  { s with objects := s.objects.modify object f }

/-! ## Snapshots -/

/-- `inspectRestartSnapshot`: has the server been restarted, and which key lags behind an own PUT? -/
def Client.inspectRestartSnapshot (s : Client) (shareMap : List (String × Metadata)) :
    Bool × Option String :=
  let lower : List (String × Entry × Int) := s.entries.filterMap fun (key, object) =>
    match shareMap.lookup key, s.objects[object]? with
    | some metadata, some entry =>
      let marker := metadata.marker.getD entry.marker
      if marker < entry.marker then some (key, entry, marker) else none
    | _, _ => none
  match lower with
  | [] => (false, none)
  | (key, entry, marker) :: rest =>
    let tolerated := rest = [] ∧ marker = entry.marker - 1 ∧ entry.ownPutMarker = some entry.marker
    if tolerated then (false, some key) else (true, none)

/-- What a record of a snapshot makes of an entry, and whether to read it then, and by force. -/
def Entry.install (entry : Entry) (reconnect restarted created : Bool) (metadata : Metadata) :
    Entry × Option Bool :=
  let nextMarker := metadata.marker.getD entry.marker
  let markerIsLower := !created && decide (nextMarker < entry.marker)
  let ignoreLowerRecord := markerIsLower && !restarted
  let described := if ignoreLowerRecord then entry else
    { entry with
      url := metadata.url.or entry.url
      binary := metadata.binary
      contentType := metadata.contentType.getD entry.contentType
      readonly := metadata.readonly }
  if !reconnect && ignoreLowerRecord then (described, none)
  else if reconnect && restarted then
    -- values that have been read stand across a restart
    let unread := created || !entry.serverRead || entry.unresolvedDroppedChange
    let restartedEntry := { described with
      marker := nextMarker
      checksum := if unread then metadata.checksum else entry.checksum
      ownPutMarker := none
      serverRevision := if created then entry.serverRevision else entry.serverRevision + 1
      readGeneration := if created then entry.readGeneration else entry.readGeneration + 1 }
    (restartedEntry, if unread then some true else none)
  else if reconnect then
    let adopted := if markerIsLower then described else { described with
      marker := nextMarker
      checksum := metadata.checksum
      ownPutMarker := forgetOwn entry.ownPutMarker nextMarker }
    let revised := { adopted with
      serverRevision := if created then entry.serverRevision else entry.serverRevision + 1 }
    (revised, if entry.autoRead || entry.unresolvedDroppedChange then
      some entry.unresolvedDroppedChange else none)
  else
    let adopted := { described with
      marker := nextMarker, checksum := metadata.checksum, ownPutMarker := none }
    let changed := created || adopted.marker != entry.marker || adopted.checksum != entry.checksum ||
      adopted.url != entry.url
    let revised := { adopted with
      serverRevision := if !created && changed then entry.serverRevision + 1
        else entry.serverRevision }
    (revised, if entry.autoRead && (changed || entry.value.isNone) then some false else none)

/-- `fetchValue`, up to its request. -/
def Client.fetchValue (s : Client) (object : Nat) (force : Bool) : Client :=
  match s.objects[object]? with
  | none => s
  | some entry =>
    if (!entry.autoRead && !force) || !s.isCurrent object then s
    else
      let read : Read := ⟨object, entry.readGeneration + 1, entry.marker⟩
      { s.modify object fun entry => { entry with readGeneration := entry.readGeneration + 1 } with
        reads := s.reads ++ [read], unanswered := s.unanswered ++ [read] }

/-- One record of a snapshot. -/
def Client.installRecord (reconnect restarted : Bool) (s : Client) (record : String × Metadata) :
    Client :=
  let (key, metadata) := record
  let (s, object, created) : Client × Nat × Bool :=
    match s.entries.lookup key with
    | some object => (s, object, false)
    | none =>
      ({ s with
        objects := s.objects ++ [makeEntry key metadata]
        entries := s.entries ++ [(key, s.objects.length)] }, s.objects.length, true)
  match s.objects[object]? with
  | none => s
  | some entry =>
    let (entry, read) := entry.install reconnect restarted created metadata
    let s := s.modify object fun _ => entry
    match read with
    | some force => s.fetchValue object force
    | none => s

/-- `installSnapshot` -/
def Client.installSnapshot (s : Client) (shareMap : List (String × Metadata)) : Client :=
  let reconnect := s.adoptRestartSnapshot
  let restarted := reconnect && (s.inspectRestartSnapshot shareMap).1
  let listed := shareMap.map Prod.fst
  let kept := { s with entries := s.entries.filter fun entry => listed.contains entry.1 }
  { shareMap.foldl (Client.installRecord reconnect restarted) kept with
    sharelist := listed
    adoptRestartSnapshot := false
    connection := if reconnect then s.connection + 1 else s.connection }

/-! ## Updates and reads -/

/-- `updateMetadata`, with whether it has changed the entry. -/
def Entry.updateMetadata (entry : Entry) (checksum : Option (Option String)) (marker : Option Int) :
    Entry × Bool :=
  match marker with
  | none => (entry, false)
  | some marker =>
    if marker < entry.marker then (entry, false)
    else
      let changed := marker != entry.marker || checksum != some entry.checksum
      ({ entry with
        marker := marker
        checksum := checksum.getD entry.checksum
        ownPutMarker := forgetOwn entry.ownPutMarker marker
        serverRevision := if changed then entry.serverRevision + 1 else entry.serverRevision },
        changed)

/-- The update message. -/
def Client.receiveUpdate (s : Client) (key : String) (checksum : Option (Option String))
    (marker : Option Int) : Client :=
  match s.entries.lookup key with
  | none => s
  | some object =>
    match s.objects[object]? with
    | none => s
    | some entry =>
      let (entry, changed) := entry.updateMetadata checksum marker
      let s := s.modify object fun _ => entry
      if (changed && entry.autoRead) || entry.unresolvedDroppedChange then
        s.fetchValue object entry.unresolvedDroppedChange
      else s

/-- The reply to a GET, with its body. -/
structure ReadReply where
  status : Nat := 200
  /-- A 404 says that the share has no value. -/
  noValue : Bool := false
  marker : Option Int := none
  checksum : Option String := none
  contentType : Option String := none
  body : Body
  deriving DecidableEq, Repr

/-- The value that a reply brings, if it brings one. -/
def ReadReply.value (reply : ReadReply) : Option Value :=
  if reply.status = 204 then some none
  else if reply.status = 404 then (if reply.noValue then some none else none)
  else if reply.status < 200 ∨ 300 ≤ reply.status then none
  else some (some reply.body)

/-- What a value that has been read makes of the entry. -/
def Entry.receiveValue (entry : Entry) (connection : Nat) (read : Read) (reply : ReadReply)
    (value : Value) : Entry :=
  let stored := { entry with
    value := some value
    serverRead := true
    unresolvedDroppedChange := false
    contentType := reply.contentType.getD entry.contentType
    origin := .read connection reply.marker }
  if read.generation ≠ entry.readGeneration then entry
  else match reply.marker with
    | none => stored
    | some marker =>
      if marker < read.requestedMarker ∨ marker < entry.marker then entry
      else { stored with
        marker := marker
        checksum := reply.checksum.or entry.checksum
        ownPutMarker := forgetOwn entry.ownPutMarker marker }

/-- `fetchValue`, from its reply on. -/
def Client.receiveRead (s : Client) (read : Read) (reply : ReadReply) : Client :=
  match reply.value with
  | none => s
  | some value =>
    if s.isCurrent read.object then
      s.modify read.object fun entry => entry.receiveValue s.connection read reply value
    else s

/-! ## Edits and writes -/

/-- May the page set the entry to the value? A Blob for a text share is set as its text later on. -/
def Entry.admits (entry : Entry) (value : Value) : Bool :=
  match value with
  | none => !entry.readonly
  | some (.blob _) => !entry.readonly && entry.binary
  | some (.text _) => !entry.readonly && !entry.binary

/-- `setValue`, up to its handlers. -/
def Client.setValue (s : Client) (object : Nat) (value : Value) : Client :=
  match s.objects[object]? with
  | none => s
  | some entry =>
    if !s.isCurrent object || !entry.admits value then s
    else
      { s.modify object fun entry => { entry with
          readGeneration := entry.readGeneration + 1
          localVersion := entry.localVersion + 1
          value := some value
          origin := .edit (entry.localVersion + 1) } with
        edits := s.edits ++ [(object, ⟨value, entry.localVersion + 1⟩)] }

/-- The head of the loop of `drainWrites`, with what is behind it. -/
def Client.writeNext (s : Client) (object : Nat) : Client :=
  let current := s.isCurrent object
  s.modify object fun entry =>
    match entry.pending with
    | some operation =>
      if current then { entry with
        pending := none
        writer := .sent operation entry.marker entry.serverRevision }
      else { entry with writer := .idle }
    | none => { entry with writer := .idle }

/-- `setValue`, behind its handlers. -/
def Client.queueEdit (s : Client) (object : Nat) (operation : Operation) : Client :=
  let s := { s.modify object fun entry => { entry with pending := some operation } with
    edits := s.edits.erase (object, operation) }
  match s.objects[object]? with
  | none => s
  | some entry => if entry.writer = .idle ∧ s.isCurrent object then s.writeNext object else s

/-- The reply to a PUT, with its body. -/
inductive WriteReply
  | failed
  | refused (status : Nat)
  | conflict (marker : Option Int) (checksum : Option String)
  | accepted (marker : Option Int) (checksum : Option String)
  deriving DecidableEq, Repr

/-- What an accepted PUT makes of the entry. -/
def Entry.receiveAccepted (entry : Entry) (operation : Operation) (requestMarker : Int)
    (requestServerRevision : Nat) (marker : Option Int) (checksum : Option String) : Entry :=
  let looping := { entry with writer := .looping }
  if requestServerRevision = entry.serverRevision ∧ (∀ m ∈ marker, entry.marker ≤ m) then
    let marked := match marker with
      | some marker => { looping with
          marker := marker
          ownPutMarker := if requestMarker < marker then some marker else none }
      | none => looping
    let resolved := { marked with
      checksum := checksum.or entry.checksum, unresolvedDroppedChange := false }
    if entry.localVersion = operation.revision then
      { resolved with value := some operation.value, origin := .edit operation.revision }
    else resolved
  else looping

/-- What a conflict makes of the entry: pending edits are dropped. -/
def Entry.receiveConflict (entry : Entry) (requestServerRevision : Nat) (marker : Option Int)
    (checksum : Option String) : Entry :=
  let dropped := { entry with
    pending := none, unresolvedDroppedChange := true, writer := .refreshing }
  match marker with
  | none => dropped
  | some marker =>
    if requestServerRevision = entry.serverRevision ∧ entry.marker ≤ marker then
      { dropped with
        marker := marker
        checksum := checksum.or entry.checksum
        ownPutMarker := forgetOwn entry.ownPutMarker marker }
    else dropped

/-- The headers of a reply to a PUT arrive. -/
def Client.receiveHeaders (s : Client) (object : Nat) : Client :=
  match s.objects[object]? with
  | none => s
  | some entry =>
    match entry.writer with
    | .sent operation requestMarker requestServerRevision =>
      if s.isCurrent object then s.modify object fun entry =>
        { entry with writer := .reading operation requestMarker requestServerRevision }
      else s.writeNext object
    | _ => s

/-- The rest of a reply to a PUT arrives, or none comes. -/
def Client.receiveWrite (s : Client) (object : Nat) (reply : WriteReply) : Client :=
  match s.objects[object]? with
  | none => s
  | some entry =>
    match entry.writer, reply with
    | .sent _ _ _, .failed => s.modify object fun entry => { entry with writer := .looping }
    | .reading _ _ _, .failed | .reading _ _ _, .refused _ =>
      s.modify object fun entry => { entry with writer := .looping }
    | .reading operation requestMarker requestServerRevision, .accepted marker checksum =>
      s.modify object fun entry =>
        entry.receiveAccepted operation requestMarker requestServerRevision marker checksum
    | .reading _ _ requestServerRevision, .conflict marker checksum =>
      (s.modify object fun entry =>
        entry.receiveConflict requestServerRevision marker checksum).fetchValue object true
    | _, _ => s

/-! ## Events -/

inductive Event
  | snapshot (shareMap : List (String × Metadata))
  | update (key : String) (checksum : Option (Option String)) (marker : Option Int)
  | readReply (read : Read) (reply : ReadReply)
  | writeHeaders (object : Nat)
  | writeReply (object : Nat) (reply : WriteReply)
  /-- The loop of the writes goes on behind the handlers of a reply, or after a refresh. -/
  | writeNext (object : Nat)
  | edit (object : Nat) (value : Value)
  /-- The handlers of an edit are done. -/
  | edited (object : Nat) (operation : Operation)
  | setAutoRead (object : Nat) (autoRead : Bool)
  /-- The connection ends, or another one is started in its place. -/
  | reconnect
  deriving DecidableEq, Repr

def Client.step (s : Client) : Event → Option Client
  | .snapshot shareMap => some (s.installSnapshot shareMap)
  | .update key checksum marker => some (s.receiveUpdate key checksum marker)
  | .readReply read reply =>
    if read ∈ s.unanswered then
      some ({ s with unanswered := s.unanswered.erase read }.receiveRead read reply)
    else none
  | .writeHeaders object => some (s.receiveHeaders object)
  | .writeReply object reply => some (s.receiveWrite object reply)
  | .writeNext object =>
    match (s.objects[object]?).map Entry.writer with
    | some .looping | some .refreshing => some (s.writeNext object)
    | _ => none
  | .edit object value => some (s.setValue object value)
  | .edited object operation =>
    if (object, operation) ∈ s.edits then some (s.queueEdit object operation) else none
  | .setAutoRead object autoRead =>
    some (s.modify object fun entry => { entry with autoRead := autoRead })
  | .reconnect => some { s with adoptRestartSnapshot := true }

end Browser

end SeamlessWorkflow
