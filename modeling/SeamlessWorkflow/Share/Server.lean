import SeamlessWorkflow.Share.Registry
import SeamlessWorkflow.Attachments.Session

/-!
# The share server: values and hand-over

A registration is held when its Context closes, and a later registration of the same URL re-attaches
to it. A PUT that arrives meanwhile waits for a future of the registration it has found.

The steps are those of the server's event loop between two awaits, and of the threads that reserve and
commit; each is one locked part of the code.
-/

namespace SeamlessWorkflow

namespace ShareServer

/-! ## Finding a registration -/

/-- The lookup of `_handle`. -/
def dispatch (s : ShareServer) (url : Route) : Option Nat :=
  if url ∈ reservedToplevelKeys.map fun key => [key] then none
  else
    match s.topRecords.lookup url, url with
    | some r, _ => some r
    | none, name :: first :: rest =>
      if first :: rest ∈ reservedNamespaceKeys.map fun key => [key] then none
      else s.records.lookup (name, first :: rest)
    | none, _ => none

/-- Is a registration that has been found answered for? -/
def serves (s : ShareServer) (r : Nat) : Bool :=
  let reg := s.registrations r
  (reg.active || reg.held || reg.reattaching) && !reg.closed

/-- The registration that answers a URL. -/
def answering (s : ShareServer) (url : Route) : Option Nat := (s.dispatch url).filter s.serves

/-- The marker and the checksum that a URL shows. -/
def shows (s : ShareServer) (url : Route) : Option (Nat × Option Checksum) :=
  (s.answering url).map fun r => ((s.registrations r).marker, (s.registrations r).checksum)

/-! ## Futures -/

def isPending (s : ShareServer) (future : Nat) : Bool := (s.futures future).isNone

/-- Complete a future, unless it is done. -/
def complete (s : ShareServer) (future : Option Nat) (result : Option Nat) : ShareServer :=
  match future with
  | none => s
  | some f =>
    if s.isPending f then { s with futures := Function.update s.futures f (some result) } else s

/-- Give a registration a new future. -/
def createFuture (s : ShareServer) (r : Nat) : ShareServer :=
  { s.modify r fun reg => { reg with reattachFuture := some s.futureCount } with
    futureCount := s.futureCount + 1 }

/-- Give a registration a future that is not done. -/
def renewFuture (s : ShareServer) (r : Nat) : ShareServer :=
  if (s.registrations r).reattachFuture.any s.isPending then s else s.createFuture r

/-! ## Activation and re-attachment -/

/-- `_activate`, up to the completion of a re-attachment. -/
def activate (s : ShareServer) (r : Nat) : ShareServer :=
  if (s.registrations r).closed then s else s.modify r fun reg => { reg with active := true }

/-- `_complete_reattach` -/
def completeReattach (s : ShareServer) (r : Nat) : ShareServer :=
  let reg := s.registrations r
  match reg.reattachedFrom with
  | none => s
  | some predecessor =>
    if reg.closed then s
    else
      (s.modify r fun reg =>
        { reg with
          held := false, reattaching := false, holdUntil := none, reattachedFrom := none }).complete
        (s.registrations predecessor).reattachFuture (some r)

/-! ## Values -/

/-- A checksum is installed: what `_deliver` and `_put` do once they have accepted it. -/
def install (s : ShareServer) (r : Nat) (checksum : Option Checksum) : ShareServer :=
  let reg := s.registrations r
  let s :=
    if checksum = reg.checksum then s
    else
      { s.modify r fun reg => { reg with checksum := checksum, marker := reg.marker + 1 } with
        markerFloors := Function.update s.markerFloors reg.route (reg.marker + 1) }
  { s.modify r fun reg =>
      { reg with ws := reg.ws + 1, fingerprint := some (s.fingerprints + 1) } with
    fingerprints := s.fingerprints + 1 }

/-- `_deliver` -/
def deliver (s : ShareServer) (r : Nat) (seq : Nat) (checksum : Option Checksum)
    (expectedFingerprint : Option Nat) : Transport.DeliveryAck Nat × ShareServer :=
  let reg := s.registrations r
  if reg.closed || !reg.active then
    ({ seq, ws := reg.ws, outcome := .error, checksum := reg.checksum
       fingerprint := reg.fingerprint, reason := "share is detached" }, s)
  else if expectedFingerprint ≠ reg.fingerprint then
    ({ seq, ws := reg.ws, outcome := .conflict, checksum := reg.checksum
       fingerprint := reg.fingerprint }, s)
  else
    let s := s.install r checksum
    let reg := s.registrations r
    ({ seq, ws := reg.ws, outcome := .written, checksum := reg.checksum
       fingerprint := reg.fingerprint }, s)

/-- The first locked part of `_put`: it waits, or it goes on to read the request. -/
def enterPut (s : ShareServer) (r : Nat) : ShareServer × PutState :=
  let reg := s.registrations r
  let mustWait := reg.held || reg.reattaching ||
    (s.namespaces.lookup reg.inNamespace).any ShareNamespace.closing
  if mustWait then
    match reg.reattachFuture with
    | some f => (s, .waiting r f)
    | none => (s.createFuture r, .waiting r s.futureCount)
  else if reg.spec.readonly then (s, .answered .methodNotAllowed)
  else (s, .ready r)

/-- The second locked part of `_put`. The value has been read and brought into canonical form, unless
it is invalid. -/
def installPut (s : ShareServer) (r : Nat) (marker : Option Nat) (value : Option Checksum) :
    ShareServer × PutResponse :=
  match value with
  | none => (s, .invalidValue)
  | some checksum =>
    let reg := s.registrations r
    if reg.closed || !reg.active then (s, .closing)
    else if marker.any (· != reg.marker) then (s, .conflict reg.checksum reg.marker)
    else
      let s := s.install r (some checksum)
      (s, .ok checksum (s.registrations r).marker)

/-! ## Closing and holding -/

/-- The registrations of a namespace that its owner has made and that are not closed. -/
def owned (s : ShareServer) (ns : ShareNamespace) : List Nat :=
  ns.values.filter fun r => (s.registrations r).owner == ns.owner && !(s.registrations r).closed

/-- `_begin_close_namespace` -/
def beginCloseNamespace (s : ShareServer) (name : String) (owner : Owner) : ShareServer :=
  match s.namespaces.lookup name with
  | none => s
  | some ns =>
    if ns.owner ≠ owner then s
    else
      (s.owned ns).foldl renewFuture (s.modifyNamespace name fun ns => { ns with closing := true })

/-- What `_hold_namespace` does to a registration. -/
def holdUntil (deadline : Nat) (s : ShareServer) (r : Nat) : ShareServer :=
  (s.modify r fun reg =>
    { reg with active := false, held := true, reattaching := false, holdUntil := some deadline }
    ).renewFuture r

/-- `_hold_namespace` -/
def holdNamespace (s : ShareServer) (name : String) (owner : Owner) (timeout : Nat) : ShareServer :=
  match s.namespaces.lookup name with
  | none => s
  | some ns =>
    if ns.owner ≠ owner then s
    else
      let deadline := s.now + timeout
      (s.owned ns).foldl (holdUntil deadline) (s.modifyNamespace name fun ns =>
        { ns with closing := false, ownerActive := false, holdUntil := some deadline, holdTask := true })

/-- `_hold_registration` -/
def holdRegistration (s : ShareServer) (r : Nat) : ShareServer :=
  if (s.registrations r).closed then s
  else
    (s.modify r fun reg => { reg with active := false, held := true, reattaching := false }
      ).renewFuture r

/-- A registration of a namespace is dropped, and who waits for it is told so. -/
def expire (s : ShareServer) (r : Nat) : ShareServer :=
  (s.complete (s.registrations r).reattachFuture none).removeRegistration r

/-- The registrations of a namespace whose hold is over. -/
def expired (s : ShareServer) (ns : ShareNamespace) : List Nat :=
  ns.values.filter fun r =>
    (s.registrations r).held && (s.registrations r).holdUntil.any (· ≤ s.now)

/-- The second half of a round of `_expire_holds`: the namespace is released, or its next deadline is
waited for. -/
def endHold (s : ShareServer) (name : String) : ShareServer :=
  let s := s.modifyNamespace name fun ns =>
    { ns with holdUntil := ns.holdUntil.filter (s.now < ·) }
  match s.namespaces.lookup name with
  | none => s
  | some ns =>
    if !ns.ownerActive && ns.holdUntil.isNone && ns.values.isEmpty then
      { s with namespaces := s.namespaces.erase name }
    else if (ns.values.any fun r =>
        (s.registrations r).held && (s.registrations r).holdUntil.isSome) ||
        (!ns.ownerActive && ns.holdUntil.isSome) then s
    else s.modifyNamespace name fun ns => { ns with holdTask := false }

/-- One round of `_expire_holds`, for the namespace of this name. -/
def expireHolds (s : ShareServer) (name : String) : ShareServer :=
  match s.namespaces.lookup name with
  | none => s
  | some ns => if ns.holdTask then ((s.expired ns).foldl expire s).endHold name else s

/-- `_close_namespace` -/
def closeNamespace (s : ShareServer) (name : String) (owner : Owner) : ShareServer :=
  match s.namespaces.lookup name with
  | none => s
  | some ns =>
    if ns.owner ≠ owner then s
    else if ns.values.any fun r =>
        (s.registrations r).owner == owner && (s.registrations r).active && !(s.registrations r).closed
      then s
    else
      let s := ns.values.foldl expire s
      let staged := s.stagedReservations.filter fun r =>
        (s.registrations r).inNamespace == name && (s.registrations r).owner == owner
      let s := staged.foldl expire s
      { s with namespaces := s.namespaces.erase name }

/-- `_release_namespace` -/
def releaseNamespace (s : ShareServer) (name : String) (owner : Owner) : ShareServer :=
  if (s.namespaces.lookup name).any fun ns => ns.owner == owner then
    { s with namespaces := s.namespaces.erase name }
  else s

/-- The first locked part of `_unregister`. -/
def unregister (s : ShareServer) (r : Nat) (closeNamespace : Bool) : ShareServer :=
  let reg := s.registrations r
  let ns := (s.namespaces.lookup reg.inNamespace).filter fun ns => ns.owner == reg.owner
  let staged := s.stagedReservations.filter fun item =>
    (s.registrations item).inNamespace == reg.inNamespace && (s.registrations item).owner == reg.owner
  let others := (ns.map ShareNamespace.values).getD [] ++ staged
  let rest := if !closeNamespace then [r] else if others.contains r then others else others ++ [r]
  { s with unregistering := s.unregistering ++
      [{ registration := r, rest, closes := if closeNamespace then ns.map ShareNamespace.id else none }] }

/-- The end of `_unregister`. -/
def finishUnregister (s : ShareServer) (task : Unregistering) : ShareServer :=
  let reg := s.registrations task.registration
  if (s.namespaces.lookup reg.inNamespace).any fun ns =>
      task.closes == some ns.id && ns.owner == reg.owner then
    { s with namespaces := s.namespaces.erase reg.inNamespace }
  else s

/-! ## Steps -/

inductive Event
  | start
  | tick (duration : Nat)
  | reserve (name : String) (spec : ServedSpec) (owner : Option Owner) (replaces : List Nat)
      (staged : Bool)
  | commitReservations (registrations : List Nat)
  | activate (r : Nat)
  | completeReattach (r : Nat)
  | deliver (r seq : Nat) (checksum : Option Checksum) (expectedFingerprint : Option Nat)
  | beginCloseNamespace (name : String) (owner : Owner)
  | holdRegistration (r : Nat)
  | holdNamespace (name : String) (owner : Owner) (timeout : Nat)
  | expireHolds (name : String)
  | closeNamespace (name : String) (owner : Owner)
  | releaseNamespace (name : String) (owner : Owner)
  | unregister (r : Nat) (closeNamespace : Bool)
  /-- A call of `_unregister` goes on. -/
  | removeNext (task : Nat)
  /-- A PUT arrives. -/
  | put (url : Route) (marker : Option Nat)
  /-- The future that a PUT waits for is done. -/
  | resumePut (put : Nat)
  | timeoutPut (put : Nat)
  /-- The body of a PUT has been read. -/
  | installPut (put : Nat) (value : Option Checksum)

/-- Record how far a PUT has come. -/
def setPut (s : ShareServer) (i : Nat) (state : PutState) : ShareServer :=
  { s with puts := s.puts.modify i fun put => { put with state := state } }

def step (s : ShareServer) : Event → Option ShareServer
  | .start => some { s with started := true }
  | .tick duration => some { s with now := s.now + duration }
  | .reserve name spec owner replaces staged =>
    match s.reserve name spec owner replaces staged with
    | .ok s => some s
    | .error _ => some s
  | .commitReservations registrations => some (s.commitReservations registrations).2
  | .activate r => if s.started && !(s.registrations r).staged then some (s.activate r) else none
  | .completeReattach r => if s.started then some (s.completeReattach r) else none
  | .deliver r seq checksum expected =>
    if s.started then some (s.deliver r seq checksum expected).2 else none
  | .beginCloseNamespace name owner =>
    if s.started then some (s.beginCloseNamespace name owner) else some s
  | .holdRegistration r => if s.started then some (s.holdRegistration r) else none
  | .holdNamespace name owner timeout =>
    if s.started then some (s.holdNamespace name owner timeout) else some s
  | .expireHolds name => if s.started then some (s.expireHolds name) else none
  | .closeNamespace name owner => if s.started then some (s.closeNamespace name owner) else none
  | .releaseNamespace name owner => if s.started then none else some (s.releaseNamespace name owner)
  | .unregister r closeNamespace =>
    -- without the event loop; with `close_namespace` a release follows, which is a step of its own
    if s.started then some (s.unregister r closeNamespace) else some (s.removeRegistration r)
  | .removeNext task =>
    match s.unregistering[task]? with
    | none => none
    | some { registration, rest := r :: rest, closes } =>
      some { s.removeRegistration r with
        unregistering := s.unregistering.set task { registration, rest, closes } }
    | some { registration, rest := [], closes } =>
      some { s.finishUnregister { registration, rest := [], closes } with
        unregistering := s.unregistering.eraseIdx task }
  | .put url marker =>
    if !s.started then none
    else
      match s.answering url with
      | none => some { s with puts := s.puts ++ [{ marker, state := .answered .noSuchShare }] }
      | some r =>
        let entered := s.enterPut r
        some { entered.1 with puts := s.puts ++ [{ marker, state := entered.2 }] }
  | .resumePut i =>
    match s.puts[i]? with
    | some { state := .waiting _ f, .. } =>
      match s.futures f with
      | none => none
      | some none => some (s.setPut i (.answered .noSuchShare))
      | some (some r) =>
        let entered := s.enterPut r
        some (entered.1.setPut i entered.2)
    | _ => none
  | .timeoutPut i =>
    match s.puts[i]? with
    | some { state := .waiting _ _, .. } => some (s.setPut i (.answered .timedOut))
    | _ => none
  | .installPut i value =>
    match s.puts[i]? with
    | some { state := .ready r, marker } =>
      let installed := s.installPut r marker value
      some (installed.1.setPut i (.answered installed.2))
    | _ => none

end ShareServer

end SeamlessWorkflow
