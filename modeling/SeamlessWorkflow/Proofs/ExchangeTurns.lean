import SeamlessWorkflow.Proofs.Exchanges

/-!
# Messages that are processed

A session hears of the version that an observation speaks of, or that its delivery was written. What it
knows of the external side stays in order.
-/

namespace SeamlessWorkflow

namespace Mount

open Transport

namespace Attached

variable {a : Attached Nat} {o : Transport.Observation Nat} {now : Nat}

/-- The session hears what an observation says. -/
def heard (o : Transport.Observation Nat) (a : Attached Nat) : Attached Nat :=
  { a with session := { a.session with
      processedWs := o.ws, disk := o.checksum, fingerprint := o.fingerprint } }

/-- A new observation is heard, and its value or its error goes to the node. -/
theorem observed_cases (now : Nat) (hkind : classify o a.session ≠ .stale) :
    (∃ text, (a.heard o).take (classify o a.session) o = .error text ∧
      a.observed now o = { a.heard o with session := { (a.heard o).session with error := some text } }) ∨
    ∃ b, (a.heard o).take (classify o a.session) o = .ok b ∧
      a.observed now o = (b.canonicalize (classify o a.session) o).insist now (classify o a.session) o := by
  unfold observed
  dsimp only
  rw [if_neg hkind]
  split
  · rename_i text htext
    exact Or.inl ⟨text, htext, rfl⟩
  · rename_i b hb
    exact Or.inr ⟨b, hb, rfl⟩

theorem Quiet.observed (now : Nat) (hkind : classify o a.session ≠ .stale) :
    Quiet (a.heard o) (a.observed now o) := by
  rcases observed_cases now hkind with ⟨text, -, heq⟩ | ⟨b, hb, heq⟩
  · rw [heq]
    exact ⟨⟨rfl, rfl, rfl, rfl, rfl, rfl⟩, rfl, rfl, rfl⟩
  · rw [heq]
    have hcanonical := (Quiet.take hb).trans (Quiet.canonicalize (classify o a.session) o b)
    exact hcanonical.trans (Quiet.insist (classify o a.session) o _)

theorem Quiet.clearError (a : Attached Nat) : Quiet a a.clearError := by
  unfold Attached.clearError
  dsimp only
  have hclear : Quiet a { a with session := { a.session with
      error := none, state := .active, reasserts := [], retryAt := 0 } } :=
    ⟨⟨rfl, rfl, rfl, rfl, rfl, rfl⟩, rfl, rfl, rfl⟩
  split
  · split
    · exact hclear.trans (Quiet.request ..)
    · exact hclear
  · exact hclear

/-- The session hears that a delivery was written. -/
def heardWritten (ack : DeliveryAck Nat) (written : Checksum) (delivery : Delivery Nat)
    (a : Attached Nat) : Attached Nat :=
  let s := a.session
  { a with session := { s with
      inFlight := none, initial := true, disk := .value written, fingerprint := ack.fingerprint
      processedWs := ack.ws, writtenPair := some (delivery.checksum, .value written)
      error := if s.state = .tripped then s.error else none, retryDelay := second } }

theorem acknowledge_written {ack : DeliveryAck Nat} {written : Checksum} (delivery : Delivery Nat)
    (hack : ack.outcome = .written) (hws : a.session.processedWs < ack.ws)
    (hchecksum : ack.checksum = some written) :
    a.acknowledge now ack delivery = a.heardWritten ack written delivery := by
  unfold acknowledge heardWritten
  simp only [hack, hws, if_true, hchecksum, Option.elim_some]

/-- A delivery that was not written is no longer in flight, and may be asked for again. -/
theorem acknowledge_refused {ack : DeliveryAck Nat} (delivery : Delivery Nat)
    (hack : ack.outcome ≠ .written) :
    SameSide a.session (a.acknowledge now ack delivery).session ∧
      (a.acknowledge now ack delivery).session.inFlight = none ∧
      (a.acknowledge now ack delivery).node = a.node ∧
      (a.acknowledge now ack delivery).root = a.root ∧
      (a.acknowledge now ack delivery).effects = a.effects := by
  have hside : SameSide a.session { a.session with inFlight := none, initial := true } :=
    ⟨rfl, rfl, rfl, rfl, rfl, rfl⟩
  unfold acknowledge
  dsimp only
  cases houtcome : ack.outcome with
  | written => exact absurd houtcome hack
  | conflict => exact ⟨hside, rfl, rfl, rfl, rfl⟩
  | error =>
    dsimp only
    split
    · split
      · exact ⟨⟨rfl, rfl, rfl, rfl, rfl, rfl⟩, rfl, rfl, rfl, rfl⟩
      · exact ⟨⟨rfl, rfl, rfl, rfl, rfl, rfl⟩, rfl, rfl, rfl, rfl⟩
    · split
      · exact ⟨⟨rfl, rfl, rfl, rfl, rfl, rfl⟩, rfl, rfl, rfl, rfl⟩
      · exact ⟨⟨rfl, rfl, rfl, rfl, rfl, rfl⟩, rfl, rfl, rfl, rfl⟩

end Attached

namespace Exchange

variable {x y : Exchange} {null : Checksum}

namespace Ordered

/-- The first message is processed. -/
theorem process (h : x.Ordered) {m : Message} {messages : List Message}
    (hmessages : x.messages = m :: messages) {s : Session Nat} {told : Nat}
    (htold : told = x.told ∨ told = m.version) (hnews : m.report.tells ≠ none → told = m.version)
    (hdisk : s.disk = x.history told) (hfingerprint : s.fingerprint = x.fingerprintOf told)
    (hws : s.processedWs = x.session.processedWs ∨
      m.report.tells ≠ none ∧ s.processedWs = m.report.ws)
    (hflight : m.report.ack = none ∧ s.inFlight = x.session.inFlight ∨
      m.report.ack.isSome = true ∧ s.inFlight = none) :
    Ordered { x with session := s, told, messages } := by
  have hmem : m ∈ x.messages := by
    rw [hmessages]
    exact List.mem_cons_self ..
  have hrest : ∀ m' ∈ messages, m' ∈ x.messages := by
    rw [hmessages]
    exact fun m' hm' => List.mem_cons_of_mem _ hm'
  have hsorted := h.sorted
  have hturn := h.inTurn
  have hbefore := h.before
  rw [hmessages] at hsorted hturn hbefore
  obtain ⟨hhead, hsorted⟩ := List.pairwise_cons.mp hsorted
  obtain ⟨hfirst, hturn⟩ := List.pairwise_cons.mp hturn
  have hbefore := (List.pairwise_cons.mp hbefore).2
  obtain ⟨hlow, hhigh⟩ := h.bounds m hmem
  have hlater : x.told ≤ told := by
    rcases htold with heq | heq
    · omega
    · omega
  have hknown : told ≤ x.seen := by
    have := h.told
    rcases htold with heq | heq
    · omega
    · omega
  -- the answer to what is in flight is the only one
  have hlast : m.report.ack.isSome = true →
      x.jobs = [] ∧ ∀ m' ∈ messages, m'.report.ack = none := by
    intro hack
    have hone := h.one
    have hfilter : ((m :: messages).filter fun m => m.report.ack.isSome) =
        m :: messages.filter fun m => m.report.ack.isSome := List.filter_cons_of_pos hack
    rw [hmessages, hfilter, List.length_cons] at hone
    have hle : (if x.session.inFlight.isSome then 1 else 0) ≤ 1 := by
      split
      · exact Nat.le_refl _
      · exact Nat.zero_le _
    refine ⟨List.eq_nil_of_length_eq_zero (by omega), fun m' hm' => ?_⟩
    have hnil : (messages.filter fun m => m.report.ack.isSome) = [] :=
      List.eq_nil_of_length_eq_zero (by omega)
    have hnot := List.filter_eq_nil_iff.mp hnil m' hm'
    simpa using hnot
  refine ⟨hknown, h.seen, ?_, hsorted, hdisk, hfingerprint, fun m' hm' => h.tells m' (hrest m' hm'),
    fun m' hm' => h.observed m' (hrest m' hm'), fun m' hm' => h.written m' (hrest m' hm'), ?_, ?_,
    hturn, ?_, ?_, ?_, ?_, ?_, ?_⟩
  · intro m' hm'
    refine ⟨?_, (h.bounds m' (hrest m' hm')).2⟩
    rcases htold with heq | heq
    · have := (h.bounds m' (hrest m' hm')).1
      dsimp only
      omega
    · have := hhead m' hm'
      dsimp only
      omega
  · rcases h.latest with heq | ⟨m', hm', htells, hversion⟩
    · left
      dsimp only
      omega
    · rw [hmessages] at hm'
      rcases List.mem_cons.mp hm' with rfl | hold
      · exact Or.inl ((hnews htells).trans hversion)
      · exact Or.inr ⟨m', hold, htells, hversion⟩
  · intro m' hm' htells
    obtain ⟨hlt, hle⟩ := h.news m' (hrest m' hm') htells
    refine ⟨?_, hle⟩
    rcases hws with heq | ⟨htold, heq⟩
    · exact heq ▸ hlt
    · exact heq ▸ hfirst m' hm' htold htells
  · rcases hws with heq | ⟨htold, heq⟩
    · exact heq ▸ h.processed
    · exact heq ▸ (h.news m hmem htold).2
  · intro d hd
    rcases hflight with ⟨-, heq⟩ | ⟨hack, -⟩
    · exact heq.trans (h.jobs d hd)
    · dsimp only at hd
      rw [(hlast hack).1] at hd
      cases hd
  · intro m' hm' ack hack
    rcases hflight with ⟨-, heq⟩ | ⟨hanswer, -⟩
    · dsimp only
      rw [heq]
      exact h.acks m' (hrest m' hm') ack hack
    · rw [(hlast hanswer).2 m' hm'] at hack
      cases hack
  · rcases hflight with ⟨hack, heq⟩ | ⟨hanswer, heq⟩
    · have hone := h.one
      have hfilter : ((m :: messages).filter fun m => m.report.ack.isSome) =
          messages.filter fun m => m.report.ack.isSome := by
        refine List.filter_cons_of_neg ?_
        rw [hack]
        exact Bool.false_ne_true
      rw [hmessages, hfilter] at hone
      dsimp only
      rw [heq]
      exact hone
    · obtain ⟨hjobs, hacks⟩ := hlast hanswer
      have hnil : (messages.filter fun m => m.report.ack.isSome) = [] := by
        refine List.filter_eq_nil_iff.mpr fun m' hm' => ?_
        rw [hacks m' hm']
        exact Bool.false_ne_true
      dsimp only
      rw [hjobs, hnil, heq]
      rfl
  · intro d hd f hf
    rcases hflight with ⟨-, heq⟩ | ⟨-, heq⟩
    · dsimp only at hd
      rw [heq] at hd
      exact Nat.le_trans (h.expected d hd f hf) hlater
    · dsimp only at hd
      rw [heq] at hd
      cases hd
  · rcases hflight with ⟨-, heq⟩ | ⟨-, heq⟩
    · dsimp only
      rw [heq]
      exact hbefore
    · dsimp only
      rw [heq]
      exact hbefore.imp fun _ _ _ _ _ hd => nomatch hd

end Ordered

theorem onto_of_nil {a : Attached Nat} (h : a.effects = []) (x : Exchange) :
    x.onto a = { x with session := a.session } := by
  unfold onto
  rw [h, List.append_nil]

/-- A handler that dispatches at its end. -/
theorem onto_dispatch (null : Checksum) (a : Attached Nat) (x : Exchange) :
    x.onto (a.dispatch null x.now) = (x.onto a).dispatched null := by
  let b : Attached Nat := (x.onto a).attached
  obtain ⟨hsession, handed, hhanded, hhanded'⟩ :=
    Attached.dispatch_session null x.now (a := a) (b := b) rfl
  have hnew : (b.dispatch null x.now).effects = handed := hhanded'
  show ({ x with
      session := (a.dispatch null x.now).session
      jobs := x.jobs ++ (a.dispatch null x.now).effects } : Exchange) =
    { x with
      session := (b.dispatch null x.now).session
      jobs := x.jobs ++ a.effects ++ (b.dispatch null x.now).effects }
  rw [hsession, hhanded, hnew, List.append_assoc]

namespace Ordered

section

variable {o : Transport.Observation Nat} {ack : DeliveryAck Nat} {version : Nat} {messages : List Message}

/-- An observation that comes next is not stale. -/
theorem fresh (h : x.Ordered)
    (hmessages : x.messages = { report := .observed o, version } :: messages) :
    Attached.classify o x.session ≠ .stale := by
  have hmem : { report := .observed o, version } ∈ x.messages := by
    rw [hmessages]
    exact List.mem_cons_self ..
  have hlt : x.session.processedWs < o.ws := (h.news _ hmem fun ht => nomatch ht).1
  unfold Attached.classify classifyObservation
  rw [if_neg (by omega)]
  split
  · exact fun h => nomatch h
  · split
    · exact fun h => nomatch h
    · split
      · exact fun h => nomatch h
      · split
        · exact fun h => nomatch h
        · exact fun h => nomatch h

/-- An observation is heard. -/
theorem hear (h : x.Ordered)
    (hmessages : x.messages = { report := .observed o, version } :: messages) :
    Ordered { x with session := (x.attached.heard o).session, told := version, messages } := by
  have hmem : { report := .observed o, version } ∈ x.messages := by
    rw [hmessages]
    exact List.mem_cons_self ..
  exact h.process hmessages (Or.inr rfl) (fun _ => rfl) (h.tells _ hmem _ rfl) (h.observed _ hmem o rfl)
    (Or.inr ⟨fun ht => (nomatch ht), rfl⟩) (Or.inl ⟨rfl, rfl⟩)

theorem receiveObserved (h : x.Ordered)
    (hmessages : x.messages = { report := .observed o, version } :: messages) :
    Ordered (onto (x.attached.observed x.now o) { x with told := version, messages }) := by
  have hquiet : Attached.Quiet (x.attached.heard o) (x.attached.observed x.now o) :=
    Attached.Quiet.observed x.now (h.fresh hmessages)
  rw [onto_of_nil hquiet.effects]
  exact (h.hear hmessages).quiet hquiet.side hquiet.inFlight

/-- The answer to the delivery that is in flight is processed. -/
theorem receiveAck (h : x.Ordered)
    (hmessages : x.messages = { report := .delivered ack, version } :: messages) :
    ∃ delivery, x.session.inFlight = some delivery ∧ delivery.seq = ack.seq ∧
      Ordered (onto (x.attached.acknowledge x.now ack delivery)
        { x with told := if ack.outcome = .written then version else x.told, messages }) := by
  have hmem : { report := .delivered ack, version } ∈ x.messages := by
    rw [hmessages]
    exact List.mem_cons_self ..
  obtain ⟨delivery, hflight, hseq⟩ := h.acks _ hmem ack rfl
  refine ⟨delivery, hflight, hseq.symm, ?_⟩
  by_cases hack : ack.outcome = .written
  · obtain ⟨hfingerprint, written, hchecksum⟩ := h.written _ hmem ack rfl hack
    have htells : (Report.delivered ack).tells = some (.value written) := by
      refine (if_pos hack).trans ?_
      rw [hchecksum]
      rfl
    have hsome : (Report.delivered ack).tells ≠ none := by
      rw [htells]
      exact fun h => nomatch h
    have hws : x.session.processedWs < ack.ws := (h.news _ hmem hsome).1
    have heq : x.attached.acknowledge x.now ack delivery =
        x.attached.heardWritten ack written delivery :=
      Attached.acknowledge_written delivery hack hws hchecksum
    have hdisk : External.value written = x.history version := h.tells _ hmem _ htells
    have hversion : ack.fingerprint = x.fingerprintOf version := by
      unfold fingerprintOf
      rw [← hdisk, if_neg (fun h => nomatch h)]
      exact hfingerprint
    rw [heq, if_pos hack, onto_of_nil (a := x.attached.heardWritten ack written delivery) rfl]
    exact h.process hmessages (Or.inr rfl) (fun _ => rfl) hdisk hversion (Or.inr ⟨hsome, rfl⟩)
      (Or.inr ⟨rfl, rfl⟩)
  · obtain ⟨hside, hnone, -, -, heffects⟩ :=
      @Attached.acknowledge_refused x.attached x.now ack delivery hack
    have htells : (Report.delivered ack).tells = none := if_neg hack
    rw [if_neg hack, onto_of_nil heffects]
    exact h.process hmessages (Or.inl rfl) (fun ht => absurd htells ht) (hside.disk.trans h.disk)
      (hside.fingerprint.trans h.fingerprint) (Or.inl hside.processedWs) (Or.inr ⟨rfl, hnone⟩)

end

end Ordered

/-- What it is to process a message. -/
theorem receive_cases {node : NodeView} (hstep : x.receive null node = some y) :
    (∃ o version messages, x.messages = { report := .observed o, version } :: messages ∧
      y = endTurn null (x.attached.observed x.now o)
        (if (x.attached.observed x.now o).root.isSome then node else x.node)
        { x with told := version, messages }) ∨
    ∃ ack version messages, x.messages = { report := .delivered ack, version } :: messages ∧
      y = endTurn null (x.attached.delivered null x.now ack) x.node
        { x with told := if ack.outcome = .written then version else x.told, messages } := by
  unfold receive at hstep
  split at hstep
  · cases hstep
  · rename_i m messages hmessages
    obtain ⟨report, version⟩ := m
    dsimp only at hstep
    cases report with
    | observed o =>
      cases hstep
      exact Or.inl ⟨o, version, messages, hmessages, rfl⟩
    | delivered ack =>
      cases hstep
      exact Or.inr ⟨ack, version, messages, hmessages, rfl⟩

theorem delivered_eq {delivery : Delivery Nat} {ack : DeliveryAck Nat} {a : Attached Nat} {now : Nat}
    (hflight : a.session.inFlight = some delivery) (hseq : delivery.seq = ack.seq) :
    a.delivered null now ack = (a.acknowledge now ack delivery).dispatch null now := by
  unfold Attached.delivered
  rw [hflight]
  exact if_pos hseq

/-- What it is that the driver carries out a delivery, or does not. -/
theorem execute_cases {canonical : Checksum → Checksum} {outcome : DeliveryOutcome} {reason : String}
    (hstep : x.execute canonical outcome reason = some y) :
    ∃ delivery jobs, x.jobs = delivery :: jobs ∧
      ((outcome = .written ∧ x.accepts delivery.expectedFingerprint = true ∧
        y = { x with
          history := Function.update x.history (x.version + 1) (.value (canonical delivery.checksum))
          version := x.version + 1, seen := x.version + 1, ws := x.ws + 1, jobs
          messages := x.messages ++ [{ version := x.version + 1, report := .delivered {
            seq := delivery.seq, ws := x.ws + 1, outcome := .written
            checksum := some (canonical delivery.checksum)
            fingerprint := some (x.version + 1) } }] }) ∨
      ∃ ack : DeliveryAck Nat, ack.outcome = outcome ∧ ack.seq = delivery.seq ∧
        ack.outcome ≠ .written ∧
        (outcome = .conflict → delivery.expectedFingerprint ≠ x.fingerprintOf x.version) ∧
        y = { x with
          jobs, messages := x.messages ++ [{ report := .delivered ack, version := x.seen }] }) := by
  unfold execute at hstep
  split at hstep
  · cases hstep
  · rename_i delivery jobs hjobs
    refine ⟨delivery, jobs, hjobs, ?_⟩
    cases outcome with
    | written =>
      dsimp only at hstep
      split at hstep
      · rename_i haccepts
        cases hstep
        exact Or.inl ⟨rfl, haccepts, rfl⟩
      · cases hstep
    | conflict =>
      dsimp only at hstep
      split at hstep
      · rename_i hexpected
        cases hstep
        have hack : DeliveryOutcome.conflict ≠ .written := fun h => nomatch h
        exact Or.inr ⟨_, rfl, rfl, hack, fun _ => hexpected, rfl⟩
      · cases hstep
    | error =>
      cases hstep
      have hack : DeliveryOutcome.error ≠ .written := fun h => nomatch h
      exact Or.inr ⟨_, rfl, rfl, hack, fun h => (nomatch h), rfl⟩

/-- When the driver carries out a delivery that expects nothing to be there, no report of something that
was there is on its way. -/
def ExpectsNothing (x : Exchange) : Prop :=
  ∀ delivery ∈ x.jobs.head?, delivery.expectedFingerprint = none →
    ∀ m ∈ x.messages, ∀ o ∈ m.report.observation, o.checksum = .absent

theorem Ordered.step (h : x.Ordered) {canonical : Checksum → Checksum} {event : Event}
    (hnone : ∀ reason, event = .execute .written reason → x.ExpectsNothing)
    (hstep : x.step null canonical event = some y) : y.Ordered := by
  cases event with
  | elapse duration =>
    cases hstep
    exact h.elapse _
  | change content =>
    cases hstep
    exact h.change content
  | observe version reason noValue needsCanonicalWrite =>
    unfold Exchange.step at hstep
    dsimp only at hstep
    split at hstep
    · rename_i hversion
      cases hstep
      exact h.observe hversion.1 hversion.2 reason noValue needsCanonicalWrite
    · cases hstep
  | execute outcome reason =>
    obtain ⟨delivery, jobs, hjobs, hcases⟩ := execute_cases hstep
    rcases hcases with ⟨rfl, haccepts, rfl⟩ | ⟨ack, -, hseq, hack, -, rfl⟩
    · refine h.write hjobs haccepts (fun hexpected m hm o ho => ?_) _
      have hhead : delivery ∈ x.jobs.head? := by
        rw [hjobs]
        rfl
      exact hnone reason rfl delivery hhead hexpected m hm o ho
    · exact h.answer hjobs hseq hack
  | turn node rooted =>
    cases hstep
    refine Ordered.endTurn ?_ null node
    rw [onto_of_nil rfl]
    refine h.quiet ?_ ?_
    · cases rooted
      · exact .refl _
      · exact ⟨rfl, rfl, rfl, rfl, rfl, rfl⟩
    · cases rooted
      · rfl
      · rfl
  | receive node =>
    rcases receive_cases hstep with ⟨o, version, messages, hmessages, rfl⟩ |
      ⟨ack, version, messages, hmessages, rfl⟩
    · exact (h.receiveObserved hmessages).endTurn null _
    · obtain ⟨delivery, hflight, hseq, hacknowledged⟩ := h.receiveAck hmessages
      refine Ordered.endTurn ?_ null _
      rw [delivered_eq (a := x.attached) hflight hseq]
      let z : Exchange :=
        { x with told := if ack.outcome = .written then version else x.told, messages }
      have hdispatch := hacknowledged.dispatch null
      have heq := onto_dispatch null (x.attached.acknowledge x.now ack delivery) z
      exact heq ▸ hdispatch
  | clearError =>
    cases hstep
    have hquiet : Attached.Quiet x.attached x.attached.clearError := .clearError _
    refine Ordered.endTurn ?_ null x.node
    rw [onto_of_nil hquiet.effects]
    exact h.quiet hquiet.side hquiet.inFlight

/-! ## Runs -/

/-- A session that knows what it was attached to, and has delivered nothing, is in order. -/
theorem start_ordered (null : Checksum) {a : Attached Nat} {o : Transport.Observation Nat} (node : NodeView)
    (now : Nat) (hdisk : a.session.disk = o.checksum)
    (hfingerprint : a.session.fingerprint = if o.checksum = .absent then none else some 0)
    (hws : a.session.processedWs ≤ o.ws) (hidle : a.session.inFlight = none) (hjobs : a.effects = []) :
    (start null a o node now).Ordered := by
  refine Ordered.endTurn ?_ null _
  rw [onto_of_nil hjobs]
  refine ⟨Nat.le_refl _, Nat.le_refl _, fun _ hm => (nomatch hm), .nil, hdisk, hfingerprint,
    fun _ hm => (nomatch hm), fun _ hm => (nomatch hm), fun _ hm => (nomatch hm), Or.inl rfl,
    fun _ hm => (nomatch hm), .nil, hws, fun _ hd => (nomatch hd), fun _ hm => (nomatch hm), ?_,
    fun _ hd => ?_, .nil⟩
  · dsimp only
    rw [hidle]
    rfl
  · dsimp only at hd
    rw [hidle] at hd
    cases hd

/-- The session and its driver stay in order in every run. What the session takes the external side to
hold, it has held in the version that the session has been told of last. -/
theorem reachable_ordered {canonical : Checksum → Checksum} {first : Exchange} (hfirst : first.Ordered)
    (h : Transition.Reachable (Exchange.step null canonical) first
      (fun x event => ∀ reason, event = .execute .written reason → x.ExpectsNothing) x) :
    x.Ordered ∧ x.session.disk = x.history x.told := by
  have hordered : x.Ordered := h.invariant hfirst fun _ _ _ hx hnone hstep => hx.step hnone hstep
  exact ⟨hordered, hordered.disk⟩

end Exchange

end Mount

end SeamlessWorkflow
