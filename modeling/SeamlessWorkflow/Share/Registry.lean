import SeamlessWorkflow.Graph.Nodes
import SeamlessWorkflow.Library.Index
import SeamlessWorkflow.Library.Transition

/-!
# The share server: registrations

Each share is a registration of one URL, made on behalf of a Context in a namespace that the Context
owns. Three tables find registrations: those of the top-level URLs, those of the URLs in a namespace,
and the records of each namespace. Registrations, namespaces and futures have an identity.
-/

namespace SeamlessWorkflow

/-- What the server reads of a `ShareSpec`. The path is cut at its slashes. -/
structure ServedSpec where
  path : List String
  readonly : Bool := true
  toplevel : Bool := false
  deriving DecidableEq, Repr

/-- The segments of a URL, before they are quoted. -/
abbrev Route := List String

/-- What the registry raises. -/
inductive ShareError
  | emptyPath
  | unsafeSegment
  | toplevelSegments
  | toplevelReserved
  | namespaceRouteReserved
  | unsafeNamespace
  | namespaceReserved (name : String)
  | namespaceInUse (name : String)
  | namespaceConflict (name : String)
  | keyInUse (path : List String) (name : String)
  | urlInUse (route : Route)
  | urlConflict (route : Route) (name : String)
  | graphConflict (route : Route)
  | notStaged
  | notAvailable
  /-- The `KeyError` of a namespace that is gone. -/
  | noNamespace (name : String)
  deriving DecidableEq, Repr

/-- `repr` of a name of printable characters. -/
def quoted (name : String) : String :=
  let chars := name.toList
  let mark := if chars.contains '\'' && !chars.contains '"' then '"' else '\''
  let escape (c : Char) : List Char := if c = mark ∨ c = '\\' then ['\\', c] else [c]
  String.ofList (mark :: chars.flatMap escape ++ [mark])

/-- A byte that `quote(part, safe="-._~")` leaves alone. -/
def isUnreserved (byte : Char) : Bool := byte.isAlphanum || "_.-~".toList.contains byte

/-- A byte as `quote` writes it: itself, or a percent sign and two digits. -/
def percentEncoded (byte : UInt8) : List Char :=
  let c := Char.ofNat byte.toNat
  if isUnreserved c then [c]
  else '%' :: [byte.toNat / 16, byte.toNat % 16].map fun digit => (Nat.digitChar digit).toUpper

/-- A route as it stands in a URL. -/
def Route.url (route : Route) : String :=
  "/" ++ "/".intercalate (route.map fun part =>
    String.ofList (part.toUTF8.toList.flatMap percentEncoded))

/-- The text of an error. -/
def ShareError.text : ShareError → String
  | .emptyPath => "share path must be a non-empty relative path"
  | .unsafeSegment => "share path contains an unsafe URL segment"
  | .toplevelSegments => "top-level share path must have one URL segment"
  | .toplevelReserved => "top-level route is reserved"
  | .namespaceRouteReserved => "namespace route is reserved"
  | .unsafeNamespace => "namespace must be one safe URL segment"
  | .namespaceReserved name => "namespace " ++ quoted name ++ " is reserved"
  | .namespaceInUse name => "namespace " ++ quoted name ++ " is in use"
  | .namespaceConflict name => "namespace " ++ quoted name ++ " conflicts with a top-level share"
  | .keyInUse path name =>
    "share key " ++ quoted ("/".intercalate path) ++ " is already in use in namespace " ++ quoted name
  | .urlInUse route => "share URL " ++ quoted route.url ++ " is in use"
  | .urlConflict route name =>
    "share URL " ++ quoted route.url ++ " conflicts with namespace " ++ quoted name
  | .graphConflict route =>
    "share URL " ++ quoted route.url ++ " conflicts with another graph share"
  | .notStaged => "share reservation is not staged"
  | .notAvailable => "share reservation is no longer available"
  | .noNamespace name => quoted name

/-- `_safe_segment` -/
def safeSegment (value : String) : Bool :=
  value != "" && value != "." && value != ".." &&
    value.toList.all fun c => !"/\\?#".toList.contains c && decide (32 ≤ c.toNat) && c.toNat != 127

/-- `RESERVED_TOPLEVEL_KEYS` -/
def reservedToplevelKeys : List String := ["openapi.json", "seamless-client.js"]

/-- `RESERVED_NAMESPACE_KEYS` -/
def reservedNamespaceKeys : List String := ["state-graph"]

/-- `_route_for`. A path that is empty or starts with a slash has an empty first segment. -/
def routeFor (name : String) (spec : ServedSpec) : Except ShareError Route :=
  if spec.path.headD "" = "" then .error .emptyPath
  else if !spec.path.all safeSegment then .error .unsafeSegment
  else if spec.toplevel then
    if spec.path.length ≠ 1 then .error .toplevelSegments
    else if reservedToplevelKeys.contains (spec.path.headD "") then .error .toplevelReserved
    else .ok spec.path
  else if spec.path.length = 1 ∧ reservedNamespaceKeys.contains (spec.path.headD "") then
    .error .namespaceRouteReserved
  else .ok (name :: spec.path)

/-- The identity of the owner of a namespace: a Context, or nobody that can come back. -/
inductive Owner
  | context (id : Nat)
  | anonymous (id : Nat)
  deriving DecidableEq, Repr

/-- What a registration is made for; it does not change. -/
structure Reservation where
  inNamespace : String
  owner : Owner
  spec : ServedSpec
  route : Route
  replaces : List Nat
  routed : routeFor inNamespace spec = .ok route

/-- `ShareRegistration`. The registrations and the future are given by their identity. -/
structure ShareRegistration extends Reservation where
  staged : Bool := false
  active : Bool := false
  closed : Bool := false
  checksum : Option Checksum := none
  marker : Nat := 0
  fingerprint : Option Nat := none
  ws : Nat := 0
  held : Bool := false
  reattaching : Bool := false
  holdUntil : Option Nat := none
  reattachFuture : Option Nat := none
  reattachedFrom : Option Nat := none

/-- `_Namespace` -/
structure ShareNamespace where
  id : Nat
  owner : Owner
  records : AList fun _ : List String => Nat := ∅
  stagedClaim : Bool := false
  ownerActive : Bool := true
  closing : Bool := false
  holdUntil : Option Nat := none
  /-- Is `_expire_holds` running for it? -/
  holdTask : Bool := false

def ShareNamespace.values (ns : ShareNamespace) : List Nat := ns.records.entries.map fun e => e.2

/-- How a PUT ends. -/
inductive PutResponse
  | ok (checksum : Checksum) (marker : Nat)
  | conflict (checksum : Option Checksum) (marker : Nat)
  | methodNotAllowed
  | invalidValue
  | noSuchShare
  | closing
  | timedOut
  deriving DecidableEq, Repr

/-- How far a PUT is. -/
inductive PutState
  /-- It waits for a future that it has found at a registration. -/
  | waiting (registration future : Nat)
  /-- Its value is to be installed. -/
  | ready (registration : Nat)
  | answered (response : PutResponse)
  deriving DecidableEq, Repr

/-- A PUT request, with the marker it names. -/
structure Put where
  marker : Option Nat
  state : PutState
  deriving DecidableEq, Repr

/-- `_unregister`, between two of its locked parts. -/
structure Unregistering where
  registration : Nat
  /-- The registrations still to be removed. -/
  rest : List Nat
  /-- The namespace that it closes in the end. -/
  closes : Option Nat
  deriving DecidableEq, Repr

/-- `ShareServer` -/
structure ShareServer where
  namespaces : AList fun _ : String => ShareNamespace := ∅
  topRecords : AList fun _ : List String => Nat := ∅
  records : AList fun _ : String × List String => Nat := ∅
  stagedReservations : List Nat := []
  markerFloors : Route → Nat := fun _ => 0
  fingerprints : Nat := 0
  started : Bool := false
  /-- `time.monotonic()` -/
  now : Nat := 0
  registrations : Nat → ShareRegistration
  registrationCount : Nat := 0
  namespaceCount : Nat := 0
  /-- The futures that are done, with their results. -/
  futures : Nat → Option (Option Nat) := fun _ => none
  futureCount : Nat := 0
  unregistering : List Unregistering := []
  puts : List Put := []

/-- The registration that an unused identity stands for. -/
def ShareRegistration.unused : ShareRegistration where
  inNamespace := "ctx"
  owner := .anonymous 0
  spec := { path := ["unused"] }
  route := ["ctx", "unused"]
  replaces := []
  routed := by decide
  closed := true

namespace ShareServer

def initial : ShareServer where
  registrations := fun _ => .unused

/-- Change a registration in place. -/
def modify (s : ShareServer) (r : Nat) (f : ShareRegistration → ShareRegistration) : ShareServer :=
  { s with registrations := Function.update s.registrations r (f (s.registrations r)) }

/-- Change a namespace in place. -/
def modifyNamespace (s : ShareServer) (name : String) (f : ShareNamespace → ShareNamespace) :
    ShareServer :=
  { s with namespaces := Index.adjust s.namespaces name f }

/-- The record of a namespace under a share key. -/
def recordOf (s : ShareServer) (name : String) (path : List String) : Option Nat :=
  (s.namespaces.lookup name).bind fun ns => ns.records.lookup path

/-- The registration in the table of top-level URLs or of URLs in a namespace. -/
def current (s : ShareServer) (name : String) (spec : ServedSpec) : Option Nat :=
  if spec.toplevel then s.topRecords.lookup spec.path else s.records.lookup (name, spec.path)

/-- `_can_take_over_namespace` -/
def canTakeOver (s : ShareServer) (name : String) (owner : Option Owner) : Bool :=
  (s.namespaces.lookup name).any fun ns =>
    owner.any fun owner => ns.owner != owner && !ns.ownerActive && ns.holdUntil.any (s.now < ·)

/-! ## Reserving -/

/-- Raise the error of the first check that fires. -/
def firstError {ε : Type} : List (Bool × ε) → Except ε Unit
  | [] => .ok ()
  | (fires, error) :: checks => if fires then .error error else firstError checks

/-- `_check_reservation_conflicts_locked`, as the checks it makes in turn. -/
def reservationChecks (s : ShareServer) (name : String) (spec : ServedSpec) (route : Route)
    (owner : Option Owner) (replaces ignoreStaged : List Nat) : List (Bool × ShareError) :=
  let ns := s.namespaces.lookup name
  let takeover := s.canTakeOver name owner
  let owned := ns.any fun ns => owner == some ns.owner
  let first := spec.path.headD ""
  let others := s.stagedReservations.filter fun other =>
    !ignoreStaged.contains other && !replaces.contains other
  -- a held registration makes way for the owner, or for who takes the namespace over
  let rejoins := fun r => (s.registrations r).held && (takeover || owned)
  [(ns.isSome && (owner.isNone || (!owned && !takeover)), .namespaceInUse name),
    ((s.topRecords.lookup [name]).any fun r => !replaces.contains r, .namespaceConflict name),
    ((s.recordOf name spec.path).any fun r => !replaces.contains r && !rejoins r,
      .keyInUse spec.path name),
    (others.any fun other =>
      (s.registrations other).spec.toplevel && (s.registrations other).spec.path == [name],
      .namespaceConflict name)] ++
  (if spec.toplevel then
    [((s.topRecords.lookup spec.path).any fun r => !replaces.contains r &&
        !(rejoins r && (s.registrations r).inNamespace == name), .urlInUse route),
      (first == name || (s.namespaces.lookup first).isSome, .urlConflict route first),
      (spec.path.tail != [] && (s.records.lookup (first, spec.path.tail)).any fun r =>
        !replaces.contains r, .urlInUse route)]
  else
    [((s.records.lookup (name, spec.path)).any fun r => !replaces.contains r && !rejoins r,
        .urlInUse route),
      ((s.topRecords.lookup (name :: spec.path)).any fun r => !replaces.contains r &&
        !(rejoins r && (s.registrations r).route == route), .urlInUse route)]) ++
  others.flatMap fun other =>
    [((s.registrations other).route == route ||
        ((s.registrations other).inNamespace == name && (s.registrations other).spec.path == spec.path),
      .urlInUse route),
      (spec.toplevel && [(s.registrations other).inNamespace] == spec.path,
        .urlConflict route (spec.path.headD ""))]

/-- `_held_registration_for_locked` -/
def heldRegistrationFor (s : ShareServer) (name : String) (spec : ServedSpec) (route : Route) :
    Option Nat :=
  let rejoined := fun r => (s.registrations r).held && (s.registrations r).route == route
  ((s.recordOf name spec.path).filter rejoined).or ((s.current name spec).filter rejoined)

/-- `_adopt_held_registration_locked` -/
def adoptHeldRegistration (s : ShareServer) (r held : Nat) : ShareServer :=
  s.modify r fun reg =>
    { reg with
      checksum := (s.registrations held).checksum
      marker := max reg.marker (s.registrations held).marker
      held := true
      reattaching := true
      reattachedFrom := some held }

/-- `_remove_registration`, without its end. -/
def removeRecords (s : ShareServer) (r : Nat) : ShareServer :=
  let reg := s.registrations r
  { s.modify r fun reg => { reg with closed := true, active := false } with
    stagedReservations := s.stagedReservations.filter (· != r)
    topRecords :=
      if reg.spec.toplevel then Index.discard s.topRecords reg.spec.path r else s.topRecords
    records :=
      if reg.spec.toplevel then s.records
      else Index.discard s.records (reg.inNamespace, reg.spec.path) r
    namespaces := Index.adjust s.namespaces reg.inNamespace fun ns =>
      { ns with records := Index.discard ns.records reg.spec.path r }
    markerFloors := Function.update s.markerFloors reg.route
      (max (s.markerFloors reg.route) reg.marker) }

/-- Is nothing left of a namespace that was made for a staged reservation? -/
def claimIsOver (s : ShareServer) (name : String) : Bool :=
  ((s.namespaces.lookup name).any fun ns => ns.stagedClaim && ns.values.isEmpty) &&
    !s.stagedReservations.any fun item => (s.registrations item).inNamespace == name

/-- `_remove_registration` -/
def removeRegistration (s : ShareServer) (r : Nat) : ShareServer :=
  let reg := s.registrations r
  if reg.closed then s
  else if reg.staged && (s.removeRecords r).claimIsOver reg.inNamespace then
    { s.removeRecords r with namespaces := (s.removeRecords r).namespaces.erase reg.inNamespace }
  else s.removeRecords r

/-- The namespace of a reservation is made if there is none. -/
def claimNamespace (s : ShareServer) (name : String) (owner : Option Owner) (staged : Bool) :
    ShareServer :=
  if (s.namespaces.lookup name).isSome then s
  else
    { s with
      namespaces := s.namespaces.insert name
        { id := s.namespaceCount
          owner := owner.getD (.anonymous s.namespaceCount)
          stagedClaim := staged }
      namespaceCount := s.namespaceCount + 1 }

/-- The owner of a registration: who asks for it, or else the owner of the namespace. -/
def registrationOwner (s : ShareServer) (name : String) (owner : Option Owner) : Owner :=
  owner.getD (((s.namespaces.lookup name).map ShareNamespace.owner).getD
    (.anonymous s.namespaceCount))

/-- Make a registration; its identity is the count of those before it. -/
def allocate (s : ShareServer) (reg : ShareRegistration) : ShareServer :=
  { s with
    registrations := Function.update s.registrations s.registrationCount reg
    registrationCount := s.registrationCount + 1 }

/-- A namespace whose owner has gone passes to a new one. -/
def takeOver (s : ShareServer) (name : String) (owner : Owner) : ShareServer :=
  if s.canTakeOver name (some owner) then
    s.modifyNamespace name fun ns =>
      { ns with owner := owner, ownerActive := true, closing := false, holdUntil := none }
  else s

/-- Enter a registration into the tables. -/
def putRecord (s : ShareServer) (r : Nat) : ShareServer :=
  let reg := s.registrations r
  { s with
    topRecords := if reg.spec.toplevel then s.topRecords.insert reg.spec.path r else s.topRecords
    records :=
      if reg.spec.toplevel then s.records
      else s.records.insert (reg.inNamespace, reg.spec.path) r
    namespaces := Index.adjust s.namespaces reg.inNamespace fun ns =>
      { ns with records := ns.records.insert reg.spec.path r } }

/-- The part of `reserve` that makes an unstaged registration visible. -/
def placeUnstaged (s : ShareServer) (r : Nat) : ShareServer :=
  let reg := s.registrations r
  let s :=
    match s.heldRegistrationFor reg.inNamespace reg.spec reg.route with
    | none => s
    | some held => (s.adoptHeldRegistration r held).removeRegistration held
  (s.takeOver reg.inNamespace reg.owner).putRecord r

/-- `reserve`. The new registration is the last one. -/
def reserve (s : ShareServer) (name : String) (spec : ServedSpec) (owner : Option Owner)
    (replaces : List Nat) (staged : Bool) : Except ShareError ShareServer :=
  if !safeSegment name then .error .unsafeNamespace
  else if reservedToplevelKeys.contains name then .error (.namespaceReserved name)
  else
    match hroute : routeFor name spec with
    | .error e => .error e
    | .ok route =>
      match firstError (s.reservationChecks name spec route owner replaces []) with
      | .error e => .error e
      | .ok () =>
        let r := s.registrationCount
        let s := s.claimNamespace name owner staged
        let s := s.allocate
          { inNamespace := name, owner := s.registrationOwner name owner, spec, route, replaces
            routed := hroute, staged, marker := s.markerFloors route }
        if staged then .ok { s with stagedReservations := s.stagedReservations ++ [r] }
        else .ok (s.placeUnstaged r)

/-- The checks of `commit_reservations`, in turn. -/
def commitChecks (s : ShareServer) (registrations : List Nat) : List (Bool × ShareError) :=
  (registrations.flatMap fun r =>
    let reg := s.registrations r
    [(reg.closed || !reg.staged, ShareError.notStaged),
      (!s.stagedReservations.contains r, .notAvailable)] ++
    s.reservationChecks reg.inNamespace reg.spec reg.route (some reg.owner) reg.replaces
      registrations) ++
  (registrations.tails.flatMap fun
    | [] => []
    | r :: others => others.map fun other =>
      let reg := s.registrations r
      let other := s.registrations other
      (reg.route == other.route ||
        (reg.inNamespace == other.inNamespace && reg.spec.path == other.spec.path) ||
        (reg.spec.toplevel && reg.spec.path == [other.inNamespace]) ||
        (other.spec.toplevel && other.spec.path == [reg.inNamespace]),
        .graphConflict reg.route))

/-- The first loop of `commit_reservations`: the namespaces pass to their new owners. -/
def takeOverAll : List Nat → ShareServer → Except ShareError Unit × ShareServer
  | [], s => (.ok (), s)
  | r :: registrations, s =>
    let reg := s.registrations r
    if (s.namespaces.lookup reg.inNamespace).isNone then (.error (.noNamespace reg.inNamespace), s)
    else takeOverAll registrations (s.takeOver reg.inNamespace reg.owner)

/-- The registrations that a staged registration replaces. -/
def replacedBy (s : ShareServer) (r : Nat) : List Nat :=
  let reg := s.registrations r
  (s.recordOf reg.inNamespace reg.spec.path).toList ++ (s.current reg.inNamespace reg.spec).toList

/-- A registration takes over the value of the held one at its URL, if there is one. -/
def adoptIfHeld (s : ShareServer) (r : Nat) : ShareServer :=
  let reg := s.registrations r
  match s.heldRegistrationFor reg.inNamespace reg.spec reg.route with
  | none => s
  | some held => s.adoptHeldRegistration r held

/-- The marker of a registration is not below those of what it replaces. -/
def raiseMarker (s : ShareServer) (r : Nat) (olds : List Nat) : ShareServer :=
  s.modify r fun reg =>
    { reg with
      marker := max (olds.foldl (fun m old => max m (s.registrations old).marker) reg.marker)
        (s.markerFloors reg.route) }

/-- A staged registration is entered into the tables. -/
def unstage (s : ShareServer) (r : Nat) : ShareServer :=
  let s := (s.modify r fun reg => { reg with staged := false }).putRecord r
  { s.modifyNamespace (s.registrations r).inNamespace fun ns => { ns with stagedClaim := false } with
    stagedReservations := s.stagedReservations.filter (· != r) }

/-- The second loop of `commit_reservations`, for one registration. What it replaces is removed
later. -/
def publish (s : ShareServer) (r : Nat) : ShareServer :=
  ((s.adoptIfHeld r).raiseMarker r (s.replacedBy r)).unstage r

/-- The second loop of `commit_reservations`, and the registrations it replaces. -/
def publishAll : List Nat → ShareServer → ShareServer × List Nat
  | [], s => (s, [])
  | r :: registrations, s =>
    let rest := publishAll registrations (s.publish r)
    (rest.1, s.replacedBy r ++ rest.2)

/-- `commit_reservations` -/
def commitReservations (s : ShareServer) (registrations : List Nat) :
    Except ShareError Unit × ShareServer :=
  match firstError (s.commitChecks registrations) with
  | .error e => (.error e, s)
  | .ok () =>
    match takeOverAll registrations s with
    | (.error e, s) => (.error e, s)
    | (.ok (), s) =>
      let published := publishAll registrations s
      (.ok (), published.2.foldl removeRegistration published.1)

end ShareServer

end SeamlessWorkflow
