import SeamlessWorkflow.Attachments.Exchange

/-!
# What a session is told

The driver tells the controller of ever later versions of the external side, and of the delivery that is
in flight. A delivery that is carried out expects the version before it, so nothing that the driver has
told before it is later than what it expects.
-/

namespace SeamlessWorkflow

namespace Mount

open Transport

/-! ## Handlers -/

/-- Two sessions of the same external side, told the same of it. -/
structure SameSide (s s' : Session Nat) : Prop where
  spec : s'.spec = s.spec
  directory : s'.directory = s.directory
  disk : s'.disk = s.disk
  fingerprint : s'.fingerprint = s.fingerprint
  processedWs : s'.processedWs = s.processedWs
  writtenPair : s'.writtenPair = s.writtenPair

namespace SameSide

theorem refl (s : Session Nat) : SameSide s s := ⟨rfl, rfl, rfl, rfl, rfl, rfl⟩

theorem trans {s s' s'' : Session Nat} (h : SameSide s s') (h' : SameSide s' s'') : SameSide s s'' :=
  ⟨h'.spec.trans h.spec, h'.directory.trans h.directory, h'.disk.trans h.disk,
    h'.fingerprint.trans h.fingerprint, h'.processedWs.trans h.processedWs,
    h'.writtenPair.trans h.writtenPair⟩

end SameSide

namespace Attached

variable {a : Attached Nat} {null checksum : Checksum} {now : Nat}

/-- A request replaces what is pending, unless the session is not active. -/
theorem request_cases (checksum : Checksum) (force : Bool) (a : Attached Nat) :
    (a.session.state ≠ .active ∧ a.request checksum force = a) ∨
    (a.session.state = .active ∧ (a.request checksum force).node = a.node ∧
      (a.request checksum force).root = a.root ∧ (a.request checksum force).effects = a.effects ∧
      ∃ delivery, delivery.checksum = checksum ∧
        (a.request checksum force).session = { a.session with
          deliverySeq := a.session.deliverySeq + 1, pending := some delivery
          lastSynced := some checksum, retryAt := 0 }) := by
  unfold request
  dsimp only
  split
  · rename_i hstate
    exact Or.inl ⟨hstate, rfl⟩
  · rename_i hstate
    exact Or.inr ⟨not_not.mp hstate, rfl, rfl, rfl, _, rfl, rfl⟩

/-- A dispatch drops what the external side holds already, or hands a delivery to the driver. -/
theorem dispatch_cases (null : Checksum) (now : Nat) (a : Attached Nat) :
    a.dispatch null now = a ∨
    ∃ delivery, a.session.inFlight = none ∧ a.session.pending = some delivery ∧
      a.session.state = .active ∧ (a.dispatch null now).node = a.node ∧
      (a.dispatch null now).root = a.root ∧
      ((equivalent null delivery.checksum a.session = true ∧
          (a.dispatch null now).session = { a.session with pending := none, initial := true } ∧
          (a.dispatch null now).effects = a.effects) ∨
        ∃ handed : Delivery Nat, handed.seq = delivery.seq ∧ handed.checksum = delivery.checksum ∧
          handed.expectedFingerprint = a.session.fingerprint ∧
          (a.dispatch null now).session = { a.session with
            pending := none, inFlight := some handed, lastDeliveryAt := now } ∧
          (a.dispatch null now).effects = a.effects ++ [handed]) := by
  unfold dispatch
  dsimp only
  split
  · rename_i delivery hflight hpending
    split
    · exact Or.inl rfl
    · rename_i hwait
      have hactive : a.session.state = .active := by
        by_contra hstate
        exact hwait (Or.inl hstate)
      split
      · rename_i hequivalent
        exact Or.inr ⟨delivery, hflight, hpending, hactive, rfl, rfl, Or.inl ⟨hequivalent.1, rfl, rfl⟩⟩
      · split
        · exact Or.inl rfl
        · exact Or.inr ⟨delivery, hflight, hpending, hactive, rfl, rfl,
            Or.inr ⟨{ delivery with expectedFingerprint := a.session.fingerprint },
              rfl, rfl, rfl, rfl, rfl⟩⟩
  · exact Or.inl rfl

/-- The first half of `_mount_after_turn`: a value that has not been carried over is requested. -/
def look (a : Attached Nat) : Attached Nat :=
  match a.node.value with
  | some checksum =>
    if a.session.spec.mode.writes ∧ a.session.lastSynced ≠ some checksum then
      let b := { a with session := { a.session with lastSynced := some checksum } }
      if a.session.disk ≠ External.value checksum then b.request checksum false else b
    else a
  | none => a

/-- Nothing is handed to the driver, and what is in flight stays. -/
structure Quiet (a b : Attached Nat) : Prop where
  side : SameSide a.session b.session
  inFlight : b.session.inFlight = a.session.inFlight
  node : b.node = a.node
  effects : b.effects = a.effects

namespace Quiet

theorem refl (a : Attached Nat) : Quiet a a := ⟨.refl _, rfl, rfl, rfl⟩

theorem trans {b c : Attached Nat} (h : Quiet a b) (h' : Quiet b c) : Quiet a c :=
  ⟨h.side.trans h'.side, h'.inFlight.trans h.inFlight, h'.node.trans h.node,
    h'.effects.trans h.effects⟩

theorem request (checksum : Checksum) (force : Bool) (a : Attached Nat) :
    Quiet a (a.request checksum force) := by
  rcases request_cases checksum force a with ⟨-, heq⟩ | ⟨-, hnode, -, heffects, delivery, -, hsession⟩
  · rw [heq]
    exact refl a
  · refine ⟨?_, ?_, hnode, heffects⟩
    · rw [hsession]
      exact ⟨rfl, rfl, rfl, rfl, rfl, rfl⟩
    · rw [hsession]

theorem look (a : Attached Nat) : Quiet a a.look := by
  unfold Attached.look
  split
  · split
    · dsimp only
      split
      · refine trans ?_ (request ..)
        exact ⟨⟨rfl, rfl, rfl, rfl, rfl, rfl⟩, rfl, rfl, rfl⟩
      · exact ⟨⟨rfl, rfl, rfl, rfl, rfl, rfl⟩, rfl, rfl, rfl⟩
    · exact refl a
  · exact refl a

theorem sense {b : Attached Nat} (h : a.sense checksum = .ok b) : Quiet a b := by
  unfold Attached.sense setRoot at h
  split at h
  · cases h
  · cases h
    exact ⟨⟨rfl, rfl, rfl, rfl, rfl, rfl⟩, rfl, rfl, rfl⟩

theorem take {b : Attached Nat} {kind : Classification} {o : Transport.Observation Nat}
    (h : a.take kind o = .ok b) : Quiet a b := by
  unfold Attached.take at h
  dsimp only at h
  split at h
  · split at h
    · exact sense h
    · cases h
      exact refl a
  · split at h
    · cases h
      exact ⟨⟨rfl, rfl, rfl, rfl, rfl, rfl⟩, rfl, rfl, rfl⟩
    · cases h
      exact refl a
  · split at h
    · cases h
      exact ⟨⟨rfl, rfl, rfl, rfl, rfl, rfl⟩, rfl, rfl, rfl⟩
    · cases h
      exact ⟨⟨rfl, rfl, rfl, rfl, rfl, rfl⟩, rfl, rfl, rfl⟩
  · split at h
    · exact sense h
    · cases h
      exact refl a
  · cases h
    exact refl a

theorem canonicalize (kind : Classification) (o : Transport.Observation Nat) (a : Attached Nat) :
    Quiet a (a.canonicalize kind o) := by
  unfold Attached.canonicalize
  split
  · split
    · exact request ..
    · exact refl a
  · exact refl a

theorem insist (kind : Classification) (o : Transport.Observation Nat) (a : Attached Nat) :
    Quiet a (a.insist now kind o) := by
  unfold Attached.insist
  dsimp only
  split
  · split
    · split
      · exact ⟨⟨rfl, rfl, rfl, rfl, rfl, rfl⟩, rfl, rfl, rfl⟩
      · refine trans ?_ (request ..)
        exact ⟨⟨rfl, rfl, rfl, rfl, rfl, rfl⟩, rfl, rfl, rfl⟩
    · exact refl a
  · exact refl a

end Quiet

end Attached

namespace Attached

/-- What a handler wants does not depend on what has been handed to the driver before. -/
theorem request_session (checksum : Checksum) (force : Bool) {a b : Attached Nat}
    (h : a.session = b.session) :
    (a.request checksum force).session = (b.request checksum force).session := by
  unfold request
  dsimp only
  rw [h]
  split
  · exact h
  · rfl

theorem look_session {a b : Attached Nat} (h : a.session = b.session) (hnode : a.node = b.node) :
    a.look.session = b.look.session := by
  unfold look
  rw [hnode, h]
  split
  · split
    · dsimp only
      split
      · exact request_session _ _ rfl
      · rfl
    · exact h
  · exact h

theorem dispatch_session (null : Checksum) (now : Nat) {a b : Attached Nat}
    (h : a.session = b.session) :
    (a.dispatch null now).session = (b.dispatch null now).session ∧
      ∃ handed, (a.dispatch null now).effects = a.effects ++ handed ∧
        (b.dispatch null now).effects = b.effects ++ handed := by
  have hnone : ∀ c : Attached Nat, c.effects = c.effects ++ [] := fun c => (List.append_nil _).symm
  unfold dispatch
  dsimp only
  rw [h]
  split
  · split
    · exact ⟨h, [], hnone a, hnone b⟩
    · split
      · exact ⟨rfl, [], hnone a, hnone b⟩
      · split
        · exact ⟨h, [], hnone a, hnone b⟩
        · exact ⟨rfl, _, rfl, rfl⟩
  · exact ⟨h, [], hnone a, hnone b⟩

end Attached

/-! ## Reports -/

namespace Report

def ack : Report → Option (DeliveryAck Nat)
  | .observed _ => none
  | .delivered ack => some ack

def observation : Report → Option (Transport.Observation Nat)
  | .observed o => some o
  | .delivered _ => none

/-- What a report tells that the external side holds. -/
def tells : Report → Option External
  | .observed o => some o.checksum
  | .delivered ack =>
    if ack.outcome = .written then some (ack.checksum.elim External.absent External.value) else none

def ws : Report → Nat
  | .observed o => o.ws
  | .delivered ack => ack.ws

end Report

/-- A message tells nothing later than a delivery expects. -/
def Precedes (delivery : Delivery Nat) (message : Message) : Prop :=
  (∀ f, delivery.expectedFingerprint = some f → message.version ≤ f) ∧
  (delivery.expectedFingerprint = none → ∀ o, message.report.observation = some o →
    o.checksum = .absent)

namespace Exchange

variable {x y : Exchange}

theorem fingerprintOf_congr {version : Nat} (h : x.history version = y.history version) :
    x.fingerprintOf version = y.fingerprintOf version := by
  simp only [fingerprintOf, h]

/-- What the session and the messages know of the external side is in order. -/
structure Ordered (x : Exchange) : Prop where
  told : x.told ≤ x.seen
  seen : x.seen ≤ x.version
  bounds : ∀ m ∈ x.messages, x.told ≤ m.version ∧ m.version ≤ x.seen
  sorted : x.messages.Pairwise fun m m' => m.version ≤ m'.version
  disk : x.session.disk = x.history x.told
  fingerprint : x.session.fingerprint = x.fingerprintOf x.told
  tells : ∀ m ∈ x.messages, ∀ c, m.report.tells = some c → c = x.history m.version
  observed : ∀ m ∈ x.messages, ∀ o, m.report.observation = some o →
    o.fingerprint = x.fingerprintOf m.version
  written : ∀ m ∈ x.messages, ∀ ack, m.report.ack = some ack → ack.outcome = .written →
    ack.fingerprint = some m.version ∧ ∃ c, ack.checksum = some c
  latest : x.told = x.seen ∨ ∃ m ∈ x.messages, m.report.tells ≠ none ∧ m.version = x.seen
  news : ∀ m ∈ x.messages, m.report.tells ≠ none →
    x.session.processedWs < m.report.ws ∧ m.report.ws ≤ x.ws
  inTurn : x.messages.Pairwise fun m m' => m.report.tells ≠ none → m'.report.tells ≠ none →
    m.report.ws < m'.report.ws
  processed : x.session.processedWs ≤ x.ws
  jobs : ∀ d ∈ x.jobs, x.session.inFlight = some d
  acks : ∀ m ∈ x.messages, ∀ ack, m.report.ack = some ack →
    ∃ d, x.session.inFlight = some d ∧ ack.seq = d.seq
  one : x.jobs.length + (x.messages.filter fun m => m.report.ack.isSome).length =
    if x.session.inFlight.isSome then 1 else 0
  expected : ∀ d, x.session.inFlight = some d → ∀ f, d.expectedFingerprint = some f → f ≤ x.told
  before : x.messages.Pairwise fun m m' => ∀ ack, m'.report.ack = some ack → ack.outcome = .written →
    ∀ d, x.session.inFlight = some d → Precedes d m

namespace Ordered

/-- The session changes in what it wants only. -/
theorem quiet (h : x.Ordered) {s : Session Nat} {node : NodeView} (hside : SameSide x.session s)
    (hflight : s.inFlight = x.session.inFlight) : Ordered { x with session := s, node } where
  told := h.told
  seen := h.seen
  bounds := h.bounds
  sorted := h.sorted
  disk := hside.disk.trans h.disk
  fingerprint := hside.fingerprint.trans h.fingerprint
  tells := h.tells
  observed := h.observed
  written := h.written
  latest := h.latest
  news m hm ht := by
    dsimp only
    rw [hside.processedWs]
    exact h.news m hm ht
  inTurn := h.inTurn
  processed := by
    dsimp only
    rw [hside.processedWs]
    exact h.processed
  jobs d hd := hflight.trans (h.jobs d hd)
  acks m hm ack hack := by
    dsimp only
    rw [hflight]
    exact h.acks m hm ack hack
  one := by
    dsimp only
    rw [hflight]
    exact h.one
  expected d hd := h.expected d (hflight ▸ hd)
  before := by
    dsimp only
    rw [hflight]
    exact h.before

/-- What is in flight is with the driver or has been answered. -/
theorem idle (h : x.Ordered) (hflight : x.session.inFlight = none) :
    x.jobs = [] ∧ ∀ m ∈ x.messages, m.report.ack = none := by
  have hone := h.one
  rw [hflight] at hone
  have hzero : x.jobs.length + (x.messages.filter fun m => m.report.ack.isSome).length = 0 := hone
  refine ⟨List.eq_nil_of_length_eq_zero (by omega), fun m hm => ?_⟩
  have hnil : (x.messages.filter fun m => m.report.ack.isSome) = [] :=
    List.eq_nil_of_length_eq_zero (by omega)
  have hnot := List.filter_eq_nil_iff.mp hnil m hm
  simpa using hnot

/-- A delivery is handed to the driver. -/
theorem hand (h : x.Ordered) (hflight : x.session.inFlight = none) {s : Session Nat}
    {delivery : Delivery Nat} (hside : SameSide x.session s) (hs : s.inFlight = some delivery)
    (hexpected : delivery.expectedFingerprint = x.session.fingerprint) :
    Ordered { x with session := s, jobs := x.jobs ++ [delivery] } := by
  obtain ⟨hjobs, hacks⟩ := h.idle hflight
  have hnone : (x.messages.filter fun m => m.report.ack.isSome) = [] := by
    refine List.filter_eq_nil_iff.mpr fun m hm => ?_
    rw [hacks m hm]
    exact Bool.false_ne_true
  refine ⟨h.told, h.seen, h.bounds, h.sorted, hside.disk.trans h.disk,
    hside.fingerprint.trans h.fingerprint, h.tells, h.observed, h.written, h.latest, ?_, h.inTurn, ?_,
    ?_, ?_, ?_, ?_, ?_⟩
  · intro m hm ht
    dsimp only
    rw [hside.processedWs]
    exact h.news m hm ht
  · dsimp only
    rw [hside.processedWs]
    exact h.processed
  · intro d hd
    rw [hjobs] at hd
    rw [List.mem_singleton.mp hd]
    exact hs
  · intro m hm ack hack
    rw [hacks m hm] at hack
    cases hack
  · dsimp only
    rw [hjobs, hnone, hs]
    rfl
  · intro d hd f hf
    dsimp only at hd
    rw [hs] at hd
    obtain rfl := Option.some.inj hd
    rw [hexpected, h.fingerprint] at hf
    unfold fingerprintOf at hf
    split at hf
    · cases hf
    · exact Nat.le_of_eq (Option.some.inj hf).symm
  · refine List.Pairwise.imp_of_mem ?_ h.before
    intro m m' _ hm' _ ack hack
    rw [hacks m' hm'] at hack
    cases hack

theorem dispatch (h : x.Ordered) (null : Checksum) :
    Ordered { x with
      session := (x.attached.dispatch null x.now).session
      jobs := x.jobs ++ (x.attached.dispatch null x.now).effects } := by
  have hnone : Ordered { x with jobs := x.jobs ++ [] } := by
    rw [List.append_nil]
    exact h
  rcases Attached.dispatch_cases null x.now x.attached with heq | ⟨delivery, hflight, -, -, -, -, hcases⟩
  · rw [heq]
    exact hnone
  · rcases hcases with ⟨-, hsession, heffects⟩ | ⟨handed, -, -, hexpected, hsession, heffects⟩
    · rw [hsession, heffects]
      exact hnone.quiet ⟨rfl, rfl, rfl, rfl, rfl, rfl⟩ rfl
    · rw [hsession, heffects]
      exact h.hand hflight ⟨rfl, rfl, rfl, rfl, rfl, rfl⟩ rfl hexpected

end Ordered

/-- What a handler has done so far, before the end of its turn. -/
def onto (a : Attached Nat) (x : Exchange) : Exchange :=
  { x with session := a.session, jobs := x.jobs ++ a.effects }

/-- The session looks at its node. -/
def looked (x : Exchange) : Exchange := { x with session := x.attached.look.session }

/-- The session dispatches. -/
def dispatched (null : Checksum) (x : Exchange) : Exchange :=
  { x with
    session := (x.attached.dispatch null x.now).session
    jobs := x.jobs ++ (x.attached.dispatch null x.now).effects }

theorem endTurn_eq (null : Checksum) (a : Attached Nat) (node : NodeView) (x : Exchange) :
    x.endTurn null a node = (looked { x.onto a with node }).dispatched null := by
  let b : Attached Nat := { a with node }
  let c : Attached Nat := (looked { x.onto a with node }).attached
  have hlook : b.look.session = c.session := Attached.look_session rfl rfl
  have heffects : b.look.effects = a.effects := (Attached.Quiet.look b).effects
  obtain ⟨hsession, handed, hhanded, hhanded'⟩ := Attached.dispatch_session null x.now hlook
  rw [heffects] at hhanded
  have hnew : (c.dispatch null x.now).effects = handed := hhanded'
  show ({ x with
      session := (b.look.dispatch null x.now).session
      node, jobs := x.jobs ++ (b.look.dispatch null x.now).effects } : Exchange) =
    { x with
      session := (c.dispatch null x.now).session
      node, jobs := x.jobs ++ a.effects ++ (c.dispatch null x.now).effects }
  rw [hsession, hhanded, hnew, List.append_assoc]

theorem Ordered.endTurn {a : Attached Nat} (h : (x.onto a).Ordered) (null : Checksum)
    (node : NodeView) : (x.endTurn null a node).Ordered := by
  rw [endTurn_eq]
  have hquiet := Attached.Quiet.look (attached { x.onto a with node })
  have hnode : Ordered { x.onto a with node } := h.quiet (.refl _) rfl
  exact Ordered.dispatch (hnode.quiet hquiet.side hquiet.inFlight) null

namespace Ordered

/-! ## The driver -/

/-- Later versions do not matter to what has been told. -/
theorem extend (h : x.Ordered) {history : Nat → External} {version : Nat} (hle : x.version ≤ version)
    (hhistory : ∀ v ≤ x.version, history v = x.history v) :
    Ordered { x with history, version } := by
  have htold : history x.told = x.history x.told := hhistory _ (Nat.le_trans h.told h.seen)
  have hmessage : ∀ m ∈ x.messages, history m.version = x.history m.version := fun m hm =>
    hhistory _ (Nat.le_trans (h.bounds m hm).2 h.seen)
  refine ⟨h.told, Nat.le_trans h.seen hle, h.bounds, h.sorted, ?_, ?_, ?_, ?_, h.written, h.latest,
    h.news, h.inTurn, h.processed, h.jobs, h.acks, h.one, h.expected, h.before⟩
  · exact h.disk.trans htold.symm
  · exact h.fingerprint.trans (fingerprintOf_congr htold.symm)
  · intro m hm c hc
    exact (h.tells m hm c hc).trans (hmessage m hm).symm
  · intro m hm o ho
    exact (h.observed m hm o ho).trans (fingerprintOf_congr (hmessage m hm).symm)

/-- The driver tells the controller something. -/
theorem send (h : x.Ordered) {m : Message} {jobs : List (Delivery Nat)} {ws : Nat}
    (hversion : x.seen ≤ m.version) (hle : m.version ≤ x.version)
    (htells : ∀ c, m.report.tells = some c → c = x.history m.version)
    (hobserved : ∀ o, m.report.observation = some o → o.fingerprint = x.fingerprintOf m.version)
    (hwritten : ∀ ack, m.report.ack = some ack → ack.outcome = .written →
      ack.fingerprint = some m.version ∧ ∃ c, ack.checksum = some c)
    (hlatest : m.report.tells = none → m.version = x.seen)
    (hws : x.ws ≤ ws) (hnews : m.report.tells ≠ none → x.ws < m.report.ws ∧ m.report.ws ≤ ws)
    (hjobs : ∀ d ∈ jobs, x.session.inFlight = some d)
    (hacks : ∀ ack, m.report.ack = some ack → ∃ d, x.session.inFlight = some d ∧ ack.seq = d.seq)
    (hone : jobs.length + (if m.report.ack.isSome then 1 else 0) = x.jobs.length)
    (hbefore : ∀ ack, m.report.ack = some ack → ack.outcome = .written →
      ∀ d, x.session.inFlight = some d → ∀ m' ∈ x.messages, Precedes d m') :
    Ordered { x with messages := x.messages ++ [m], seen := m.version, ws, jobs } := by
  have hmem : ∀ m', m' ∈ x.messages ++ [m] → m' ∈ x.messages ∨ m' = m := fun m' hm' =>
    (List.mem_append.mp hm').imp id List.mem_singleton.mp
  refine ⟨Nat.le_trans h.told hversion, hle, ?_, ?_, h.disk, h.fingerprint, ?_, ?_, ?_, ?_, ?_, ?_,
    Nat.le_trans h.processed hws, hjobs, ?_, ?_, h.expected, ?_⟩
  · intro m' hm'
    rcases hmem m' hm' with hold | rfl
    · exact ⟨(h.bounds m' hold).1, Nat.le_trans (h.bounds m' hold).2 hversion⟩
    · exact ⟨Nat.le_trans h.told hversion, Nat.le_refl _⟩
  · refine List.pairwise_append.mpr ⟨h.sorted, List.pairwise_singleton .., fun a ha b hb => ?_⟩
    rw [List.mem_singleton.mp hb]
    exact Nat.le_trans (h.bounds a ha).2 hversion
  · intro m' hm'
    rcases hmem m' hm' with hold | rfl
    · exact h.tells m' hold
    · exact htells
  · intro m' hm'
    rcases hmem m' hm' with hold | rfl
    · exact h.observed m' hold
    · exact hobserved
  · intro m' hm'
    rcases hmem m' hm' with hold | rfl
    · exact h.written m' hold
    · exact hwritten
  · by_cases hm : m.report.tells = none
    · rcases h.latest with htold | ⟨m', hm', ht, hv⟩
      · exact Or.inl (htold.trans (hlatest hm).symm)
      · exact Or.inr ⟨m', List.mem_append_left _ hm', ht, hv.trans (hlatest hm).symm⟩
    · exact Or.inr ⟨m, List.mem_append_right _ (List.mem_singleton_self m), hm, rfl⟩
  · intro m' hm' ht
    rcases hmem m' hm' with hold | rfl
    · exact ⟨(h.news m' hold ht).1, Nat.le_trans (h.news m' hold ht).2 hws⟩
    · exact ⟨Nat.lt_of_le_of_lt h.processed (hnews ht).1, (hnews ht).2⟩
  · refine List.pairwise_append.mpr ⟨h.inTurn, List.pairwise_singleton .., fun a ha b hb hta htb => ?_⟩
    have hb := List.mem_singleton.mp hb
    subst hb
    exact Nat.lt_of_le_of_lt (h.news a ha hta).2 (hnews htb).1
  · intro m' hm'
    rcases hmem m' hm' with hold | rfl
    · exact h.acks m' hold
    · exact hacks
  · have hcount := h.one
    have hnew : ([m].filter fun m => m.report.ack.isSome).length =
        if m.report.ack.isSome then 1 else 0 := by
      cases hack : m.report.ack.isSome with
      | true => simp [hack]
      | false => simp [hack]
    dsimp only
    rw [List.filter_append, List.length_append, hnew, ← hcount, ← hone]
    omega
  · refine List.pairwise_append.mpr ⟨h.before, List.pairwise_singleton .., fun a ha b hb => ?_⟩
    rw [List.mem_singleton.mp hb]
    exact fun ack hack hw d hd => hbefore ack hack hw d hd a ha

theorem change (h : x.Ordered) (content : External) : Ordered { x with
    history := Function.update x.history (x.version + 1) content, version := x.version + 1 } := by
  refine h.extend (Nat.le_succ _) fun v hv => ?_
  exact Function.update_of_ne (by omega) ..

theorem observe (h : x.Ordered) {version : Nat} (hseen : x.seen ≤ version) (hle : version ≤ x.version)
    (reason : String) (noValue needsCanonicalWrite : Bool) : Ordered { x with
      ws := x.ws + 1, seen := version
      messages := x.messages ++ [{ version, report := .observed {
        ws := x.ws + 1, fingerprint := x.fingerprintOf version, checksum := x.history version
        reason, noValue, needsCanonicalWrite } }] } := by
  refine h.send (m := { version, report := .observed _ }) hseen hle ?_ ?_ ?_ ?_ (Nat.le_succ _) ?_
    h.jobs ?_ rfl ?_
  · exact fun c hc => (Option.some.inj hc).symm
  · intro o ho
    obtain rfl := Option.some.inj ho
    rfl
  · exact fun ack hack => nomatch hack
  · exact fun ht => nomatch ht
  · exact fun _ => ⟨Nat.lt_succ_self _, Nat.le_refl _⟩
  · exact fun ack hack => nomatch hack
  · exact fun ack hack => nomatch hack

theorem elapse (h : x.Ordered) (now : Nat) : Ordered { x with now } := by
  constructor
  all_goals first
    | exact h.told | exact h.seen | exact h.bounds | exact h.sorted | exact h.disk
    | exact h.fingerprint | exact h.tells | exact h.observed | exact h.written | exact h.latest
    | exact h.news | exact h.inTurn | exact h.processed | exact h.jobs | exact h.acks | exact h.one
    | exact h.expected | exact h.before

/-- The driver has one delivery at most, and nothing has been answered while it has it. -/
theorem single (h : x.Ordered) {delivery : Delivery Nat} {jobs : List (Delivery Nat)}
    (hjobs : x.jobs = delivery :: jobs) :
    x.session.inFlight = some delivery ∧ jobs = [] ∧ ∀ m ∈ x.messages, m.report.ack = none := by
  have hflight : x.session.inFlight = some delivery := by
    refine h.jobs delivery ?_
    rw [hjobs]
    exact List.mem_cons_self ..
  have hone := h.one
  rw [hflight, hjobs, List.length_cons] at hone
  have hcount : jobs.length + 1 + (x.messages.filter fun m => m.report.ack.isSome).length = 1 := hone
  refine ⟨hflight, List.eq_nil_of_length_eq_zero (by omega), fun m hm => ?_⟩
  have hnil : (x.messages.filter fun m => m.report.ack.isSome) = [] :=
    List.eq_nil_of_length_eq_zero (by omega)
  have hnot := List.filter_eq_nil_iff.mp hnil m hm
  simpa using hnot

/-- A delivery is answered without being carried out. -/
theorem answer (h : x.Ordered) {delivery : Delivery Nat} {jobs : List (Delivery Nat)}
    (hjobs : x.jobs = delivery :: jobs) {ack : DeliveryAck Nat} (hseq : ack.seq = delivery.seq)
    (hack : ack.outcome ≠ .written) : Ordered { x with
      jobs, messages := x.messages ++ [{ report := .delivered ack, version := x.seen }] } := by
  obtain ⟨hflight, hnil, -⟩ := h.single hjobs
  have htells : (Report.delivered ack).tells = none := if_neg hack
  refine h.send (m := { report := .delivered ack, version := x.seen }) (Nat.le_refl _) h.seen ?_ ?_ ?_
    (fun _ => rfl) (Nat.le_refl _) ?_ ?_ ?_ ?_ ?_
  · intro c hc
    rw [htells] at hc
    cases hc
  · exact fun o ho => nomatch ho
  · intro ack' hack' hw
    obtain rfl := Option.some.inj hack'
    exact absurd hw hack
  · exact fun ht => absurd htells ht
  · intro d hd
    rw [hnil] at hd
    cases hd
  · intro ack' hack'
    obtain rfl := Option.some.inj hack'
    exact ⟨delivery, hflight, hseq⟩
  · rw [hjobs]
    rfl
  · intro ack' hack' hw
    obtain rfl := Option.some.inj hack'
    exact absurd hw hack

/-- A delivery is carried out. -/
theorem write (h : x.Ordered) {delivery : Delivery Nat} {jobs : List (Delivery Nat)}
    (hjobs : x.jobs = delivery :: jobs) (haccepts : x.accepts delivery.expectedFingerprint = true)
    (hnone : delivery.expectedFingerprint = none →
      ∀ m ∈ x.messages, ∀ o, m.report.observation = some o → o.checksum = .absent)
    (checksum : Checksum) : Ordered { x with
      history := Function.update x.history (x.version + 1) (.value checksum)
      version := x.version + 1, seen := x.version + 1, ws := x.ws + 1, jobs
      messages := x.messages ++ [{ version := x.version + 1, report := .delivered {
        seq := delivery.seq, ws := x.ws + 1, outcome := .written, checksum
        fingerprint := some (x.version + 1) } }] } := by
  obtain ⟨hflight, hnil, -⟩ := h.single hjobs
  have hchanged := h.change (.value checksum)
  refine hchanged.send (m := { version := x.version + 1, report := .delivered _ })
    (Nat.le_succ_of_le h.seen) (Nat.le_refl _) ?_ ?_ ?_ ?_ (Nat.le_succ _) ?_ ?_ ?_ ?_ ?_
  · intro c hc
    obtain rfl := Option.some.inj hc
    exact (Function.update_self (x.version + 1) (External.value checksum) x.history).symm
  · exact fun o ho => nomatch ho
  · intro ack hack _
    obtain rfl := Option.some.inj hack
    exact ⟨rfl, checksum, rfl⟩
  · exact fun ht => nomatch ht
  · exact fun _ => ⟨Nat.lt_succ_self _, Nat.le_refl _⟩
  · intro d hd
    rw [hnil] at hd
    cases hd
  · intro ack hack
    obtain rfl := Option.some.inj hack
    exact ⟨delivery, hflight, rfl⟩
  · dsimp only
    rw [hjobs]
    rfl
  · intro ack hack _ d hd m hm
    obtain rfl := Option.some.inj (hflight.symm.trans hd)
    refine ⟨fun f hf => ?_, fun hexpected => hnone hexpected m hm⟩
    -- what is expected is the version that is replaced
    have hversion : some f = x.fingerprintOf x.version := by
      rw [hf] at haccepts
      simpa [accepts] using haccepts
    unfold fingerprintOf at hversion
    split at hversion
    · cases hversion
    · obtain rfl := Option.some.inj hversion
      exact Nat.le_trans (h.bounds m hm).2 h.seen

end Ordered

end Exchange

end Mount

end SeamlessWorkflow
