import SeamlessWorkflow.Share.Puts
import SeamlessWorkflow.Proofs.ShareAttends

/-!
# Refused PUTs

A PUT that is refused before its value is installed has changed no record, whatever else has happened
between its steps. One whose value is installed cannot be refused any more, unless by the sink.
-/

namespace SeamlessWorkflow

namespace ShareServer

variable {s s' s'' : ShareServer}

/-! ## What a request leaves as it was -/

/-- A registration without the future that requests wait for. -/
def ShareRegistration.record (reg : ShareRegistration) : ShareRegistration :=
  { reg with reattachFuture := none }

/-- Nothing has changed but the requests and what they wait for. -/
structure SameRecords (s s' : ShareServer) : Prop where
  registrations : ∀ r, ShareRegistration.record (s'.registrations r) =
    ShareRegistration.record (s.registrations r)
  namespaces : s'.namespaces = s.namespaces
  topRecords : s'.topRecords = s.topRecords
  records : s'.records = s.records
  stagedReservations : s'.stagedReservations = s.stagedReservations
  markerFloors : s'.markerFloors = s.markerFloors
  fingerprints : s'.fingerprints = s.fingerprints
  started : s'.started = s.started
  now : s'.now = s.now
  registrationCount : s'.registrationCount = s.registrationCount
  namespaceCount : s'.namespaceCount = s.namespaceCount
  unregistering : s'.unregistering = s.unregistering

theorem SameRecords.refl (s : ShareServer) : SameRecords s s :=
  ⟨fun _ => rfl, rfl, rfl, rfl, rfl, rfl, rfl, rfl, rfl, rfl, rfl, rfl⟩

theorem SameRecords.trans (h : SameRecords s s') (h' : SameRecords s' s'') : SameRecords s s'' :=
  ⟨fun r => (h'.registrations r).trans (h.registrations r), h'.namespaces.trans h.namespaces,
    h'.topRecords.trans h.topRecords, h'.records.trans h.records,
    h'.stagedReservations.trans h.stagedReservations, h'.markerFloors.trans h.markerFloors,
    h'.fingerprints.trans h.fingerprints, h'.started.trans h.started, h'.now.trans h.now,
    h'.registrationCount.trans h.registrationCount, h'.namespaceCount.trans h.namespaceCount,
    h'.unregistering.trans h.unregistering⟩

/-- What a PUT does to the list of requests. -/
theorem SameRecords.puts (h : SameRecords s s') (puts : List Put) :
    SameRecords s { s' with puts := puts } :=
  ⟨h.registrations, h.namespaces, h.topRecords, h.records, h.stagedReservations, h.markerFloors,
    h.fingerprints, h.started, h.now, h.registrationCount, h.namespaceCount, h.unregistering⟩

theorem sameRecords_enterPut (s : ShareServer) (r : Nat) : SameRecords s (s.enterPut r).1 := by
  have hcreate : SameRecords s (s.createFuture r) := by
    refine ⟨fun n => ?_, rfl, rfl, rfl, rfl, rfl, rfl, rfl, rfl, rfl, rfl, rfl⟩
    unfold createFuture modify
    dsimp only
    by_cases hn : n = r
    · rw [hn, Function.update_self]
      rfl
    · rw [Function.update_of_ne hn]
  unfold enterPut
  dsimp only
  split
  · split
    · exact .refl s
    · exact hcreate
  · split
    · exact .refl s
    · exact .refl s

/-- A URL shows what it has shown. -/
theorem SameRecords.shows (h : SameRecords s s') (url : Route) : s'.shows url = s.shows url := by
  have hfields : ∀ r, (s'.registrations r).active = (s.registrations r).active ∧
      (s'.registrations r).held = (s.registrations r).held ∧
      (s'.registrations r).reattaching = (s.registrations r).reattaching ∧
      (s'.registrations r).closed = (s.registrations r).closed ∧
      (s'.registrations r).marker = (s.registrations r).marker ∧
      (s'.registrations r).checksum = (s.registrations r).checksum := fun r =>
    ⟨(congrArg ShareRegistration.active (h.registrations r) :),
      (congrArg ShareRegistration.held (h.registrations r) :),
      (congrArg ShareRegistration.reattaching (h.registrations r) :),
      (congrArg ShareRegistration.closed (h.registrations r) :),
      (congrArg ShareRegistration.marker (h.registrations r) :),
      (congrArg ShareRegistration.checksum (h.registrations r) :)⟩
  have hserves : s'.serves = s.serves := by
    funext r
    obtain ⟨hactive, hheld, hreattaching, hclosed, -, -⟩ := hfields r
    unfold serves
    dsimp only
    rw [hactive, hheld, hreattaching, hclosed]
  have hdispatch : s'.dispatch url = s.dispatch url := by
    unfold dispatch
    rw [h.topRecords, h.records]
  have hvalue : (fun r => ((s'.registrations r).marker, (s'.registrations r).checksum)) =
      fun r => ((s.registrations r).marker, (s.registrations r).checksum) := by
    funext r
    obtain ⟨-, -, -, -, hmarker, hchecksum⟩ := hfields r
    rw [hmarker, hchecksum]
  unfold ShareServer.shows answering
  rw [hdispatch, hserves, hvalue]

/-! ## The steps of a request -/

/-- How far a request is. -/
def putState (s : ShareServer) (i : Nat) : Option PutState := (s.puts[i]?).map Put.state

theorem putState_setPut {i : Nat} {put : Put} (hput : s.puts[i]? = some put) (state : PutState) :
    (s.setPut i state).putState i = some state ∧
      ∀ j, j ≠ i → (s.setPut i state).putState j = s.putState j := by
  unfold putState setPut
  dsimp only
  refine ⟨?_, fun j hj => ?_⟩
  · rw [List.getElem?_modify_eq, hput]
    rfl
  · rw [List.getElem?_modify_ne _ _ (Ne.symm hj)]

/-- The request that an event belongs to. -/
def requestOf (s : ShareServer) : Event → Option Nat
  | .put _ _ => some s.puts.length
  | .resumePut i | .timeoutPut i | .installPut i _ => some i
  | _ => none

/-- The value of a request has been installed. -/
def PutState.Installed : PutState → Prop
  | .answered (.ok _ _) => True
  | _ => False

/-- Where a request stands before a step of its own. -/
def Due (s : ShareServer) (event : Event) (i : Nat) : Prop :=
  match event with
  | .installPut _ _ => ∃ r, s.putState i = some (.ready r)
  | .put _ _ => s.putState i = none
  | _ => ∃ r f, s.putState i = some (.waiting r f)

/-- A step of a request leaves the others where they are, and changes no record unless it installs
the value. -/
structure OwnStep (s : ShareServer) (event : Event) (i : Nat) (s' : ShareServer) : Prop where
  due : s.Due event i
  others : ∀ j, j ≠ i → s'.putState j = s.putState j
  result : ∃ state, s'.putState i = some state ∧ (SameRecords s s' ∨ PutState.Installed state)

theorem installPut_result (s : ShareServer) (r : Nat) (marker : Option Nat)
    (value : Option Checksum) : SameRecords s (s.installPut r marker value).1 ∨
      PutState.Installed (.answered (s.installPut r marker value).2) := by
  unfold installPut
  split
  · exact Or.inl (.refl s)
  · dsimp only
    split
    · exact Or.inl (.refl s)
    · split
      · exact Or.inl (.refl s)
      · exact Or.inr trivial

theorem ownStep_setPut {event : Event} {i : Nat} {put : Put} (hdue : s.Due event i)
    (hput : s'.puts[i]? = some put) (hputs : s'.puts = s.puts) {state : PutState}
    (hresult : SameRecords s s' ∨ PutState.Installed state) :
    OwnStep s event i (s'.setPut i state) := by
  obtain ⟨hown, hothers⟩ := putState_setPut hput state
  refine ⟨hdue, fun j hj => ?_, state, hown, hresult.imp_left fun h => h.puts _⟩
  rw [hothers j hj]
  unfold putState
  rw [hputs]

theorem step_own {event : Event} {i : Nat} (hi : s.requestOf event = some i)
    (h : s.step event = some s') : OwnStep s event i s' := by
  cases event with
  | put url marker =>
    obtain rfl := Option.some.inj hi
    have hnone : s.putState s.puts.length = none := by
      unfold putState
      rw [List.getElem?_eq_none (Nat.le_refl _)]
      rfl
    have hlast : ∀ (t : ShareServer) (state : PutState), SameRecords s t →
        OwnStep s (.put url marker) s.puts.length
          { t with puts := s.puts ++ [{ marker, state }] } := by
      intro t state hsame
      refine ⟨hnone, fun j hj => ?_, state, ?_, Or.inl (hsame.puts _)⟩
      · unfold putState
        dsimp only
        rcases Nat.lt_or_gt_of_ne hj with hlt | hgt
        · rw [List.getElem?_append_left hlt]
        · rw [List.getElem?_eq_none (by simp; omega), List.getElem?_eq_none (by omega)]
      · unfold putState
        dsimp only
        rw [List.getElem?_concat_length]
        rfl
    unfold step at h
    dsimp only at h
    split at h
    · cases h
    · split at h
      · cases h
        exact hlast s _ (.refl s)
      · cases h
        exact hlast _ _ (sameRecords_enterPut s _)
  | resumePut j =>
    obtain rfl := Option.some.inj hi
    unfold step at h
    dsimp only at h
    split at h
    · rename_i marker r f hput
      have hdue : s.Due (.resumePut j) j := ⟨r, f, by unfold putState; rw [hput]; rfl⟩
      split at h
      · cases h
      · cases h
        exact ownStep_setPut hdue hput rfl (Or.inl (.refl s))
      · rename_i n hdone
        cases h
        have hputs : (s.enterPut n).1.puts = s.puts := (SameRequests.enterPut s n).1
        have hput' : (s.enterPut n).1.puts[j]? = some { marker := marker, state := .waiting r f } := by
          rw [hputs]
          exact hput
        exact ownStep_setPut hdue hput' hputs (Or.inl (sameRecords_enterPut s n))
    · cases h
  | timeoutPut j =>
    obtain rfl := Option.some.inj hi
    unfold step at h
    dsimp only at h
    split at h
    · rename_i marker r f hput
      cases h
      have hdue : s.Due (.timeoutPut j) j := ⟨r, f, by unfold putState; rw [hput]; rfl⟩
      exact ownStep_setPut hdue hput rfl (Or.inl (.refl s))
    · cases h
  | installPut j value =>
    obtain rfl := Option.some.inj hi
    unfold step at h
    dsimp only at h
    split at h
    · rename_i marker r hput
      cases h
      have hputs : (s.installPut r marker value).1.puts = s.puts := (SameRequests.installPut s r _ _).1
      have hdue : s.Due (.installPut j value) j := ⟨r, by unfold putState; rw [hput]; rfl⟩
      have hput' : (s.installPut r marker value).1.puts[j]? =
          some { marker := marker, state := .ready r } := by
        rw [hputs]
        exact hput
      exact ownStep_setPut hdue hput' hputs (installPut_result s r marker value)
    · cases h
  | _ => cases hi

/-- The other events leave the requests alone. -/
theorem step_putState {event : Event} (hother : PutServer.ofPut event = false)
    (h : s.step event = some s') : s'.puts = s.puts := by
  cases event with
  | put url marker => cases hother
  | resumePut i => cases hother
  | timeoutPut i => cases hother
  | installPut i value => cases hother
  | start =>
    cases h
    rfl
  | tick duration =>
    cases h
    rfl
  | reserve name spec owner replaces staged =>
    unfold step at h
    dsimp only at h
    split at h
    · rename_i t hreserve
      cases h
      exact (SameRequests.reserve hreserve).1
    · cases h
      rfl
  | commitReservations registrations =>
    cases h
    exact (SameRequests.commitReservations s registrations).1
  | activate r =>
    obtain ⟨-, h⟩ := Option.ite_none_right_eq_some.mp h
    cases h
    exact (SameRequests.activate s r).1
  | completeReattach r =>
    obtain ⟨-, h⟩ := Option.ite_none_right_eq_some.mp h
    cases h
    exact (SameRequests.completeReattach s r).1
  | deliver r seq checksum expected =>
    obtain ⟨-, h⟩ := Option.ite_none_right_eq_some.mp h
    cases h
    exact (SameRequests.deliver s r seq checksum expected).1
  | beginCloseNamespace name owner =>
    unfold step at h
    dsimp only at h
    split at h
    · cases h
      exact (SameRequests.beginCloseNamespace s name owner).1
    · cases h
      rfl
  | holdRegistration r =>
    obtain ⟨-, h⟩ := Option.ite_none_right_eq_some.mp h
    cases h
    exact (SameRequests.holdRegistration s r).1
  | holdNamespace name owner timeout =>
    unfold step at h
    dsimp only at h
    split at h
    · cases h
      exact (SameRequests.holdNamespace s name owner timeout).1
    · cases h
      rfl
  | expireHolds name =>
    obtain ⟨-, h⟩ := Option.ite_none_right_eq_some.mp h
    cases h
    exact (SameRequests.expireHolds s name).1
  | closeNamespace name owner =>
    obtain ⟨-, h⟩ := Option.ite_none_right_eq_some.mp h
    cases h
    exact (SameRequests.closeNamespace s name owner).1
  | releaseNamespace name owner =>
    obtain ⟨-, h⟩ := Option.ite_none_left_eq_some.mp h
    cases h
    unfold releaseNamespace
    split <;> rfl
  | unregister r closeNamespace =>
    unfold step at h
    dsimp only at h
    split at h
    · cases h
      rfl
    · cases h
      exact (SameRequests.removeRegistration s r).1
  | removeNext task =>
    unfold step at h
    dsimp only at h
    split at h
    · cases h
    · rename_i r rest closes htask
      cases h
      exact (SameRequests.removeRegistration s r).1
    · rename_i registration closes htask
      cases h
      unfold finishUnregister
      dsimp only
      split <;> rfl

end ShareServer

namespace PutServer

open ShareServer

variable {s next : PutServer} {maxBodySize i : Nat}

/-! ## Runs -/

/-- The sink takes every value over that is handed to it, or leaves the request to time out. -/
def SinksAccept (_ : PutServer) : Event → Prop
  | .sinkFails _ => False
  | _ => True

instance (s : PutServer) (event : Event) : Decidable (s.SinksAccept event) := by
  unfold SinksAccept
  split
  · exact instDecidableFalse
  · exact instDecidableTrue

/-- What the requests have done: those whose value is not installed have changed no record, and an
answer that refuses has gone to a request that does not go on. -/
structure Harmless (s : PutServer) : Prop where
  history : ∀ step ∈ s.history, SameRecords step.before step.after ∨
    ∃ state, s.server.putState step.request = some state ∧ PutState.Installed state
  answers : ∀ entry ∈ s.answers, entry.2.refuses = true →
    ∃ r, s.server.putState entry.1 = some (.ready r)

theorem not_mem_of_lookup {answers : List (Nat × PutAnswer)} (h : answers.lookup i = none)
    {answer : PutAnswer} : (i, answer) ∉ answers := by
  intro hmem
  rw [List.lookup_eq_none_iff] at h
  have hne := h _ hmem
  simp at hne

/-- A step of a request. -/
theorem Harmless.act (h : s.Harmless) {event : ShareServer.Event}
    (hi : s.server.requestOf event = some i)
    (hdone : (∃ value, event = .installPut i value) → s.answers.lookup i = none)
    (hact : s.act i event = some next) : next.Harmless := by
  obtain ⟨server, hstep, rfl⟩ := Option.map_eq_some_iff.mp hact
  obtain ⟨hdue, hothers, state, hstate, hresult⟩ := step_own hi hstep
  have hkept : ∀ j, (∃ st, s.server.putState j = some st ∧ PutState.Installed st) →
      ∃ st, server.putState j = some st ∧ PutState.Installed st := by
    rintro j ⟨st, hst, hinstalled⟩
    by_cases hj : j = i
    · subst hj
      exfalso
      cases event with
      | put url marker => rw [show s.server.putState j = none from hdue] at hst; cases hst
      | installPut k value =>
        obtain ⟨r, hready⟩ := hdue
        rw [hready] at hst
        cases hst
        exact hinstalled
      | resumePut k =>
        obtain ⟨r, f, hwaiting⟩ := hdue
        rw [hwaiting] at hst
        cases hst
        exact hinstalled
      | timeoutPut k =>
        obtain ⟨r, f, hwaiting⟩ := hdue
        rw [hwaiting] at hst
        cases hst
        exact hinstalled
      | _ => cases hi
    · exact ⟨st, by rw [hothers j hj, hst], hinstalled⟩
  refine ⟨fun step hmem => ?_, fun entry hmem hrefuses => ?_⟩
  · rcases List.mem_append.mp hmem with hold | hnew
    · exact (h.history step hold).imp_right (hkept _)
    · rw [List.mem_singleton.mp hnew]
      exact hresult.imp_right fun hinstalled => ⟨state, hstate, hinstalled⟩
  · obtain ⟨r, hready⟩ := h.answers entry hmem hrefuses
    refine ⟨r, ?_⟩
    rw [hothers entry.1 fun heq => ?_]
    · exact hready
    · rw [heq] at hready
      cases event with
      | put url marker => rw [show s.server.putState i = none from hdue] at hready; cases hready
      | installPut k value =>
        obtain rfl := Option.some.inj hi
        have hmem' : (k, entry.2) ∈ s.answers := by
          rw [← heq]
          exact hmem
        exact not_mem_of_lookup (hdone ⟨value, rfl⟩) hmem'
      | resumePut k =>
        obtain ⟨r', f, hwaiting⟩ := hdue
        rw [hwaiting] at hready
        cases hready
      | timeoutPut k =>
        obtain ⟨r', f, hwaiting⟩ := hdue
        rw [hwaiting] at hready
        cases hready
      | _ => cases hi

theorem Harmless.give (h : s.Harmless) {answer : PutAnswer}
    (hanswer : answer.refuses = true → ∃ r, s.server.putState i = some (.ready r)) :
    (s.give i answer).Harmless := by
  refine ⟨h.history, fun entry hmem hrefuses => ?_⟩
  rcases List.mem_append.mp hmem with hold | hnew
  · exact h.answers entry hold hrefuses
  · have heq := List.mem_singleton.mp hnew
    subst heq
    exact hanswer hrefuses

theorem Harmless.checkQuery (h : s.Harmless) : (s.checkQuery i).Harmless := by
  unfold PutServer.checkQuery
  split
  · rename_i r request hready _
    split
    · exact h.give fun _ => ⟨r, hready⟩
    · exact h
  · exact h

theorem Harmless.awaitsSink (h : s.Harmless) {answer : PutAnswer} (ha : answer.refuses = false)
    (hnext : (s.awaitsSink i).map (fun _ => s.give i answer) = some next) : next.Harmless := by
  obtain ⟨-, -, rfl⟩ := Option.map_eq_some_iff.mp hnext
  refine h.give fun hrefuses => ?_
  rw [ha] at hrefuses
  cases hrefuses

theorem Harmless.step (h : s.Harmless) {event : Event} (haccept : s.SinksAccept event)
    (hstep : s.step maxBodySize event = some next) : next.Harmless := by
  cases event with
  | server event =>
    obtain ⟨hother, hstep⟩ := Option.ite_none_left_eq_some.mp hstep
    obtain ⟨server, hserver, rfl⟩ := Option.map_eq_some_iff.mp hstep
    have hsame : server.putState = s.server.putState := by
      funext j
      unfold putState
      rw [step_putState (by simpa using hother) hserver]
    refine ⟨fun step hmem => ?_, fun entry hmem hrefuses => ?_⟩
    · dsimp only
      rw [hsame]
      exact h.history step hmem
    · dsimp only
      rw [hsame]
      exact h.answers entry hmem hrefuses
  | put url request =>
    obtain ⟨mid, hact, rfl⟩ := Option.map_eq_some_iff.mp hstep
    have hreceived : ({ s with requests := s.requests ++ [request] } : PutServer).Harmless :=
      ⟨h.history, h.answers⟩
    refine (hreceived.act rfl (fun hinstall => ?_) hact).checkQuery
    obtain ⟨value, heq⟩ := hinstall
    cases heq
  | resume i =>
    obtain ⟨mid, hact, rfl⟩ := Option.map_eq_some_iff.mp hstep
    refine (h.act rfl (fun hinstall => ?_) hact).checkQuery
    obtain ⟨value, heq⟩ := hinstall
    cases heq
  | timeout i =>
    refine h.act rfl (fun hinstall => ?_) hstep
    obtain ⟨value, heq⟩ := hinstall
    cases heq
  | readBody i value =>
    unfold PutServer.step at hstep
    dsimp only at hstep
    split at hstep
    · rename_i r request hnone hready _
      split at hstep
      · cases hstep
        exact h.give fun _ => ⟨r, hready⟩
      · exact h.act rfl (fun _ => hnone) hstep
    · cases hstep
  | sinkReplies i =>
    obtain ⟨answer, hawaits, rfl⟩ := Option.map_eq_some_iff.mp hstep
    refine h.give fun hrefuses => ?_
    unfold PutServer.awaitsSink at hawaits
    split at hawaits
    · cases hawaits
      cases hrefuses
    · cases hawaits
  | sinkFails i => exact haccept.elim
  | sinkTimeout i => exact h.awaitsSink rfl hstep

/-- A refused request has changed nothing that a later request can see. -/
def RefusalsChangeNothing (s : PutServer) : Prop :=
  ∀ i answer, s.answer i = some answer → answer.refuses = true →
    ∀ step ∈ s.history, step.request = i →
      SameRecords step.before step.after ∧ ∀ url, step.after.shows url = step.before.shows url

theorem Harmless.refusals (h : s.Harmless) : s.RefusalsChangeNothing := by
  intro i answer hanswer hrefuses step hmem hi
  suffices hsame : SameRecords step.before step.after from ⟨hsame, hsame.shows⟩
  refine (h.history step hmem).resolve_right ?_
  rintro ⟨state, hstate, hinstalled⟩
  rw [hi] at hstate
  unfold PutServer.answer at hanswer
  split at hanswer
  · rename_i hlookup
    cases hanswer
    obtain ⟨before, after, hsplit, -⟩ := List.lookup_eq_some_iff.mp hlookup
    have hentry : (i, answer) ∈ s.answers := by
      rw [hsplit]
      exact List.mem_append_right _ (List.mem_cons_self ..)
    obtain ⟨r, hready⟩ := h.answers _ hentry hrefuses
    rw [hready] at hstate
    cases hstate
    exact hinstalled
  · cases hanswer
  · rename_i response hne _ hput
    rw [show s.server.putState i = some (.answered response) from hput] at hstate
    cases hstate
    cases response with
    | ok checksum marker => exact hne checksum marker rfl
    | _ => exact hinstalled
  · cases hanswer

theorem reachable_harmless (h : Transition.Reachable (PutServer.step maxBodySize) {} SinksAccept s) :
    s.Harmless := by
  refine h.invariant ⟨fun _ hstep => (nomatch hstep), fun _ hentry => (nomatch hentry)⟩ ?_
  exact fun _ _ _ hs haccept hstep => hs.step haccept hstep

/-- In every run in which no sink refuses a value, a refused request has changed nothing. -/
theorem reachable_refusalsChangeNothing
    (h : Transition.Reachable (PutServer.step maxBodySize) {} SinksAccept s) :
    s.RefusalsChangeNothing :=
  (reachable_harmless h).refusals

/-- A cell is shared and gets a value, after which a PUT names another marker. -/
def putOutdated : List Event :=
  ShareServer.shareOnce.map .server ++
    [.put ["ctx", "a"] { marker := some "7" }, .readBody 0 (some ⟨6⟩)]

theorem putOutdated_runs :
    (Transition.run (PutServer.step 100) putOutdated {}).isSome = true := by decide

theorem reachable_refusalsChangeNothing_putOutdated :
    ((Transition.run (PutServer.step 100) putOutdated {}).get putOutdated_runs).RefusalsChangeNothing :=
  reachable_refusalsChangeNothing (.of_run .start (by decide) putOutdated_runs)

/-- The sink replies with an exception to the value of a PUT. -/
def putUnheard : List Event :=
  ShareServer.shareOnce.map .server ++
    [.put ["ctx", "a"] {}, .readBody 0 (some ⟨6⟩), .sinkFails 0]

theorem putUnheard_runs :
    (Transition.run (PutServer.step 100) putUnheard {}).isSome = true := by decide

theorem not_reachable_refusalsChangeNothing :
    ¬ ∀ s, Transition.Reachable (PutServer.step 100) {} (fun _ _ => True) s →
      s.RefusalsChangeNothing := by
  intro h
  have hreach : Transition.Reachable (PutServer.step 100) {} (fun _ _ => True)
      ((Transition.run (PutServer.step 100) putUnheard {}).get putUnheard_runs) :=
    .of_run .start (by decide) putUnheard_runs
  have hrefused : ((Transition.run (PutServer.step 100) putUnheard {}).get putUnheard_runs).answer 0 =
      some .sinkFailed := by decide
  have hinstalled : ∃ step ∈ ((Transition.run (PutServer.step 100) putUnheard {}).get
      putUnheard_runs).history, step.request = 0 ∧
        step.after.shows ["ctx", "a"] ≠ step.before.shows ["ctx", "a"] := by decide
  obtain ⟨step, hmem, hrequest, hshows⟩ := hinstalled
  exact hshows ((h _ hreach 0 _ hrefused rfl step hmem hrequest).2 _)

/-! ## As if a request had not been made -/

/-- The steps of requests follow one on the other. -/
def Leads (server : ShareServer) : List PutStep → ShareServer → Prop
  | [], last => last = server
  | step :: steps, last => step.before = server ∧ Leads step.after steps last

theorem Leads.append {server mid last : ShareServer} {steps later : List PutStep}
    (h : Leads server steps mid) (h' : Leads mid later last) : Leads server (steps ++ later) last := by
  induction steps generalizing server with
  | nil =>
    have hmid : mid = server := h
    rw [← hmid]
    exact h'
  | cons step steps ih => exact ⟨h.1, ih h.2⟩

/-- What has changed no record has, one after the other, changed none. -/
theorem Leads.sameRecords {server last : ShareServer} {steps : List PutStep} (h : Leads server steps last)
    (hsame : ∀ step ∈ steps, SameRecords step.before step.after) : SameRecords server last := by
  induction steps generalizing server with
  | nil =>
    have hlast : last = server := h
    rw [hlast]
    exact .refl server
  | cons step steps ih =>
    have hfirst := hsame step (List.mem_cons_self ..)
    rw [h.1] at hfirst
    exact hfirst.trans (ih h.2 fun later hl => hsame later (List.mem_cons_of_mem _ hl))

theorem leads_act {event : ShareServer.Event} (hact : s.act i event = some next) :
    ∃ steps, next.history = s.history ++ steps ∧ Leads s.server steps next.server := by
  obtain ⟨server, -, rfl⟩ := Option.map_eq_some_iff.mp hact
  exact ⟨_, rfl, rfl, rfl⟩

/-- An answer is no step. -/
theorem checkQuery_spares (s : PutServer) (i : Nat) :
    (s.checkQuery i).history = s.history ∧ (s.checkQuery i).server = s.server := by
  unfold PutServer.checkQuery
  split
  · split
    · exact ⟨rfl, rfl⟩
    · exact ⟨rfl, rfl⟩
  · exact ⟨rfl, rfl⟩

theorem leads_step {event : Event} (hput : ∀ e, event ≠ .server e)
    (hstep : s.step maxBodySize event = some next) :
    ∃ steps, next.history = s.history ++ steps ∧ Leads s.server steps next.server := by
  have hchecked : ∀ {t mid : PutServer} {i : Nat} {event : ShareServer.Event},
      t.server = s.server → t.history = s.history → t.act i event = some mid →
      ∃ steps, (mid.checkQuery i).history = s.history ++ steps ∧
        Leads s.server steps (mid.checkQuery i).server := by
    intro t mid i event hserver hhistory hact
    obtain ⟨hsame, hsame'⟩ := checkQuery_spares mid i
    rw [hsame, hsame', ← hserver, ← hhistory]
    exact leads_act hact
  cases event with
  | server event => exact absurd rfl (hput event)
  | put url request =>
    obtain ⟨mid, hact, rfl⟩ := Option.map_eq_some_iff.mp hstep
    exact hchecked (t := { s with requests := s.requests ++ [request] }) rfl rfl hact
  | resume i =>
    obtain ⟨mid, hact, rfl⟩ := Option.map_eq_some_iff.mp hstep
    exact hchecked rfl rfl hact
  | timeout i => exact leads_act hstep
  | readBody i value =>
    unfold PutServer.step at hstep
    dsimp only at hstep
    split at hstep
    · split at hstep
      · cases hstep
        exact ⟨[], (List.append_nil _).symm, rfl⟩
      · exact leads_act hstep
    · cases hstep
  | sinkReplies i =>
    obtain ⟨answer, -, rfl⟩ := Option.map_eq_some_iff.mp hstep
    exact ⟨[], (List.append_nil _).symm, rfl⟩
  | sinkFails i =>
    obtain ⟨answer, -, rfl⟩ := Option.map_eq_some_iff.mp hstep
    exact ⟨[], (List.append_nil _).symm, rfl⟩
  | sinkTimeout i =>
    obtain ⟨answer, -, rfl⟩ := Option.map_eq_some_iff.mp hstep
    exact ⟨[], (List.append_nil _).symm, rfl⟩

theorem leads_run {events : List Event} (hputs : ∀ event ∈ events, ∀ e, event ≠ .server e) :
    ∀ {s last : PutServer}, Transition.run (PutServer.step maxBodySize) events s = some last →
      ∃ steps, last.history = s.history ++ steps ∧ Leads s.server steps last.server := by
  induction events with
  | nil =>
    rintro s last hrun
    cases hrun
    exact ⟨[], (List.append_nil _).symm, rfl⟩
  | cons event events ih =>
    intro s last hrun
    obtain ⟨mid, hstep, hrun⟩ := Option.bind_eq_some_iff.mp hrun
    obtain ⟨first, hfirst, hleads⟩ := leads_step (hputs event (List.mem_cons_self ..)) hstep
    obtain ⟨later, hlater, hleads'⟩ := ih (fun e he => hputs e (List.mem_cons_of_mem _ he)) hrun
    exact ⟨first ++ later, by rw [hlater, hfirst, List.append_assoc], hleads.append hleads'⟩

/-- Requests that are made while nothing else happens, and are refused in the end, leave every record as
if they had not been made, and every URL shows what it showed. -/
theorem run_refused (h : Transition.Reachable (PutServer.step maxBodySize) {} SinksAccept s)
    {events : List Event} {last : PutServer} (hputs : ∀ event ∈ events, ∀ e, event ≠ .server e)
    (hmeets : Transition.Meets (PutServer.step maxBodySize) SinksAccept events s)
    (hrun : Transition.run (PutServer.step maxBodySize) events s = some last)
    (hrefused : ∀ step ∈ last.history.drop s.history.length,
      ∃ answer, last.answer step.request = some answer ∧ answer.refuses = true) :
    SameRecords s.server last.server ∧ ∀ url, last.server.shows url = s.server.shows url := by
  have hlast : Transition.Reachable (PutServer.step maxBodySize) {} SinksAccept last := by
    have hsome : (Transition.run (PutServer.step maxBodySize) events s).isSome = true := by
      rw [hrun]
      rfl
    have hget := Transition.Reachable.of_run h hmeets hsome
    simpa only [hrun, Option.get_some] using hget
  obtain ⟨steps, hhistory, hleads⟩ := leads_run hputs hrun
  have hnew : last.history.drop s.history.length = steps := by rw [hhistory, List.drop_left]
  have hsame : SameRecords s.server last.server := by
    refine hleads.sameRecords fun step hstep => ?_
    obtain ⟨answer, hanswer, hrefuses⟩ := hrefused step (hnew ▸ hstep)
    have hmem : step ∈ last.history := hhistory ▸ List.mem_append_right _ hstep
    exact ((reachable_harmless hlast).refusals _ answer hanswer hrefuses step hmem rfl).1
  exact ⟨hsame, hsame.shows⟩

end PutServer

end SeamlessWorkflow
