import SeamlessWorkflow.Proofs.ShareResumes

/-!
# No PUT is left waiting

In a run whose steps mind the PUTs that wait, none waits for a registration that is no longer suspended.
The code forgets those that have arrived at a registration that was re-attaching already, those of a
registration that is removed without being expired, and those that wait only for a namespace to close.
-/

namespace SeamlessWorkflow

namespace ShareServer

variable {s s' : ShareServer} {r f : Nat}

/-! ## Entering -/

/-- Does a PUT at a registration have to wait? -/
def mustWait (s : ShareServer) (n : Nat) : Bool :=
  (s.registrations n).held || (s.registrations n).reattaching ||
    (s.namespaces.lookup (s.registrations n).inNamespace).any ShareNamespace.closing

/-- A PUT waits if it must, and otherwise it is answered or goes on. -/
theorem enterPut_eq (s : ShareServer) (n : Nat) : s.enterPut n =
    if s.mustWait n = true then
      match (s.registrations n).reattachFuture with
      | some g => (s, .waiting n g)
      | none => (s.createFuture n, .waiting n s.futureCount)
    else if (s.registrations n).spec.readonly = true then (s, .answered .methodNotAllowed)
    else (s, .ready n) := rfl

/-- A PUT that waits after it has entered does so for the future of the registration. -/
theorem enterPut_waits {n m g : Nat} (h : (s.enterPut n).2 = .waiting m g) :
    m = n ∧ s.mustWait n = true ∧ ((s.enterPut n).1.registrations n).reattachFuture = some g ∧
      (s.enterPut n).1.mustWait n = true ∧
      ((s.enterPut n).1.registrations n).closed = (s.registrations n).closed := by
  have hmust : s.mustWait n = true := by
    by_contra hnot
    rw [enterPut_eq, if_neg hnot] at h
    split at h
    · cases h
    · cases h
  rw [enterPut_eq, if_pos hmust] at h ⊢
  cases hfuture : (s.registrations n).reattachFuture with
  | some g' =>
    rw [hfuture] at h
    cases h
    exact ⟨rfl, hmust, hfuture, hmust, rfl⟩
  | none =>
    rw [hfuture] at h
    cases h
    have hself : (s.createFuture n).registrations n =
        { s.registrations n with reattachFuture := some s.futureCount } := Function.update_self ..
    refine ⟨rfl, hmust, ?_, ?_, ?_⟩
    · show ((s.createFuture n).registrations n).reattachFuture = _
      rw [hself]
    · show (s.createFuture n).mustWait n = true
      unfold mustWait
      rw [hself]
      exact hmust
    · show ((s.createFuture n).registrations n).closed = _
      rw [hself]

theorem suspended_of_mustWait {n : Nat} (hopen : (s.registrations n).closed = false)
    (h : s.mustWait n = true) : s.Suspended n := by
  unfold mustWait at h
  rw [Bool.or_eq_true, Bool.or_eq_true] at h
  rcases h with h | h
  · exact Or.inl ⟨n, ⟨hopen, h⟩, Or.inl rfl⟩
  · exact Or.inr ⟨hopen, h⟩

theorem Awaits.enter {n m g : Nat} (h : (s.enterPut n).2 = .waiting m g)
    (hn : (s.registrations n).closed = true → s.mustWait n = false ∨
      ∃ g, (s.registrations n).reattachFuture = some g ∧ s.isPending g = false) :
    (s.enterPut n).1.Awaits m g := by
  obtain ⟨rfl, hmust, hfuture, hmust', hclosed⟩ := enterPut_waits h
  intro hp
  refine ⟨hfuture, ?_⟩
  cases hopen : (s.registrations m).closed with
  | false => exact suspended_of_mustWait (hclosed.trans hopen) hmust'
  | true =>
    rcases hn hopen with hnot | ⟨g', hg', hdone⟩
    · rw [hmust] at hnot
      cases hnot
    · have hsame : (s.enterPut m).1 = s ∧ (s.enterPut m).2 = .waiting m g' := by
        rw [enterPut_eq, if_pos hmust, hg']
        exact ⟨rfl, rfl⟩
      rw [hsame.2] at h
      cases h
      rw [hsame.1, hdone] at hp
      cases hp

/-! ## Steps -/

/-- An event minds the PUTs that wait for a registration. -/
def Minds (s : ShareServer) (r : Nat) : Event → Prop
  | .completeReattach n =>
    n = r → (s.registrations n).reattachedFrom ≠ none → s.Holding n → s.InClosing n
  | .reserve name spec owner replaces false => s.Admits name spec owner replaces →
    (∀ route, routeFor name spec = .ok route → ∀ held,
      s.heldRegistrationFor name spec route = some held →
        (s.registrations held).reattachedFrom ≠ some r) ∧
    (s.canTakeOver name owner = true → (s.place r).inNamespace = name → s.Supported r)
  | .commitReservations registrations => firstError (s.commitChecks registrations) = .ok () →
    ∀ n ∈ registrations, (s.canTakeOver (s.place n).inNamespace (some (s.place n).owner) = true →
      (s.place r).inNamespace = (s.place n).inNamespace → s.Supported r) ∧
    ∀ old ∈ s.replacedBy n, (s.registrations old).reattachedFrom ≠ some r ∧
      (old = r → ∃ m ∈ registrations, s.heldFor m = some r)
  | .holdNamespace name owner _ => ∀ ns, s.namespaces.lookup name = some ns → ns.owner = owner →
    (s.place r).inNamespace = name → s.Supported r ∨ r ∈ s.owned ns
  | .expireHolds name => ∀ ns, s.namespaces.lookup name = some ns → ns.holdTask = true →
    (∀ n ∈ s.expired ns, n ≠ r → (s.registrations n).reattachedFrom ≠ some r) ∧
    (s.HoldIsOver name → (s.place r).inNamespace = name → s.Supported r ∨ r ∈ s.expired ns)
  | .closeNamespace name owner => ∀ ns, s.namespaces.lookup name = some ns → s.ClosesNow name owner →
    (∀ n ∈ ns.values, n ≠ r → (s.registrations n).reattachedFrom ≠ some r) ∧
    ((s.place r).inNamespace = name → s.Supported r ∨ r ∈ ns.values)
  | .removeNext task =>
    (∀ t n rest, s.unregistering[task]? = some t → t.rest = n :: rest →
      (s.registrations n).closed = false → n ≠ r ∧ (s.registrations n).reattachedFrom ≠ some r ∧
      ((s.registrations n).staged = true → (s.place r).inNamespace = (s.place n).inNamespace →
        s.Supported r)) ∧
    ∀ name, s.dropsBlindly (.removeNext task) = some name → (s.place r).inNamespace = name →
      s.Supported r
  | _ => True

/-- An event minds all PUTs that wait, and none goes on to a registration that has been removed but is
still marked as held. -/
structure Attends (s : ShareServer) (event : Event) : Prop where
  waits : ∀ r f, s.Waits r f → s.Minds r event
  resumes : ∀ i put m g n, event = .resumePut i → s.puts[i]? = some put → put.state = .waiting m g →
    s.futures g = some (some n) → (s.registrations n).closed = true → s.mustWait n = false ∨
      ∃ g, (s.registrations n).reattachFuture = some g ∧ s.isPending g = false

/-- What holds of the PUTs that wait. -/
structure Queued (s : ShareServer) : Prop where
  sound : s.Sound
  sane : s.Sane
  origins : s.Origins
  idle : s.started = false → s.puts = []
  awaits : ∀ put ∈ s.puts, ∀ r f, put.state = .waiting r f → s.Awaits r f

theorem Suspended.lt (h : s.Suspended r) (hs : s.Sane) (ho : s.Origins) : r < s.registrationCount := by
  have hopen : ∀ n, (s.registrations n).closed = false → n < s.registrationCount := by
    intro n hn
    by_contra hle
    have hunused := hs.unused n (Nat.le_of_not_lt hle)
    rw [hn] at hunused
    cases hunused
  rcases h with ⟨n, hn, hr⟩ | hc
  · rcases hr with rfl | hr
    · exact hopen n hn.1
    · exact ho.known n r hr
  · exact hopen r hc.1

/-! ## What is asked -/

/-- No PUT gets further, and the server is not started. -/
def SameRequests (s s' : ShareServer) : Prop := s'.puts = s.puts ∧ s'.started = s.started

namespace SameRequests

theorem trans {s'' : ShareServer} (h : SameRequests s s') (h' : SameRequests s' s'') :
    SameRequests s s'' := ⟨h'.1.trans h.1, h'.2.trans h.2⟩

theorem foldl {g : ShareServer → Nat → ShareServer} (hg : ∀ s n, SameRequests s (g s n)) :
    ∀ (l : List Nat) (s : ShareServer), SameRequests s (l.foldl g s)
  | [], _ => ⟨rfl, rfl⟩
  | n :: l, s => (hg s n).trans (foldl hg l (g s n))

theorem removeRegistration (s : ShareServer) (n : Nat) : SameRequests s (s.removeRegistration n) := by
  unfold ShareServer.removeRegistration
  dsimp only
  split
  · exact ⟨rfl, rfl⟩
  · split
    · exact ⟨rfl, rfl⟩
    · exact ⟨rfl, rfl⟩

theorem complete (s : ShareServer) (future result : Option Nat) :
    SameRequests s (s.complete future result) := by
  unfold ShareServer.complete
  split
  · exact ⟨rfl, rfl⟩
  · split
    · exact ⟨rfl, rfl⟩
    · exact ⟨rfl, rfl⟩

theorem expire (s : ShareServer) (n : Nat) : SameRequests s (s.expire n) :=
  (complete ..).trans (removeRegistration ..)

theorem renewFuture (s : ShareServer) (n : Nat) : SameRequests s (s.renewFuture n) := by
  unfold ShareServer.renewFuture
  split
  · exact ⟨rfl, rfl⟩
  · exact ⟨rfl, rfl⟩

theorem activate (s : ShareServer) (n : Nat) : SameRequests s (s.activate n) := by
  unfold ShareServer.activate
  split
  · exact ⟨rfl, rfl⟩
  · exact ⟨rfl, rfl⟩

theorem completeReattach (s : ShareServer) (n : Nat) : SameRequests s (s.completeReattach n) := by
  unfold ShareServer.completeReattach
  dsimp only
  split
  · exact ⟨rfl, rfl⟩
  · split
    · exact ⟨rfl, rfl⟩
    · refine trans ?_ (complete ..)
      exact ⟨rfl, rfl⟩

theorem install (s : ShareServer) (n : Nat) (checksum : Option Checksum) :
    SameRequests s (s.install n checksum) := by
  unfold ShareServer.install
  dsimp only
  split
  · exact ⟨rfl, rfl⟩
  · exact ⟨rfl, rfl⟩

theorem deliver (s : ShareServer) (n seq : Nat) (checksum : Option Checksum) (expected : Option Nat) :
    SameRequests s (s.deliver n seq checksum expected).2 := by
  unfold ShareServer.deliver
  dsimp only
  split
  · exact ⟨rfl, rfl⟩
  · split
    · exact ⟨rfl, rfl⟩
    · exact install s n checksum

theorem installPut (s : ShareServer) (n : Nat) (marker : Option Nat) (value : Option Checksum) :
    SameRequests s (s.installPut n marker value).1 := by
  unfold ShareServer.installPut
  split
  · exact ⟨rfl, rfl⟩
  · dsimp only
    split
    · exact ⟨rfl, rfl⟩
    · split
      · exact ⟨rfl, rfl⟩
      · exact install s n _

theorem enterPut (s : ShareServer) (n : Nat) : SameRequests s (s.enterPut n).1 := by
  rw [enterPut_eq]
  split
  · split
    · exact ⟨rfl, rfl⟩
    · exact ⟨rfl, rfl⟩
  · split
    · exact ⟨rfl, rfl⟩
    · exact ⟨rfl, rfl⟩

theorem beginCloseNamespace (s : ShareServer) (name : String) (owner : Owner) :
    SameRequests s (s.beginCloseNamespace name owner) := by
  unfold ShareServer.beginCloseNamespace
  split
  · exact ⟨rfl, rfl⟩
  · split
    · exact ⟨rfl, rfl⟩
    · refine trans ?_ (foldl renewFuture ..)
      exact ⟨rfl, rfl⟩

theorem holdRegistration (s : ShareServer) (n : Nat) : SameRequests s (s.holdRegistration n) := by
  unfold ShareServer.holdRegistration
  split
  · exact ⟨rfl, rfl⟩
  · refine trans ?_ (renewFuture ..)
    exact ⟨rfl, rfl⟩

theorem holdUntil (deadline : Nat) (s : ShareServer) (n : Nat) :
    SameRequests s (holdUntil deadline s n) := by
  refine trans ?_ (renewFuture ..)
  exact ⟨rfl, rfl⟩

theorem holdNamespace (s : ShareServer) (name : String) (owner : Owner) (timeout : Nat) :
    SameRequests s (s.holdNamespace name owner timeout) := by
  unfold ShareServer.holdNamespace
  split
  · exact ⟨rfl, rfl⟩
  · split
    · exact ⟨rfl, rfl⟩
    · refine trans ?_ (foldl (holdUntil _) ..)
      exact ⟨rfl, rfl⟩

theorem endHold (s : ShareServer) (name : String) : SameRequests s (s.endHold name) := by
  unfold ShareServer.endHold
  dsimp only
  split
  · exact ⟨rfl, rfl⟩
  · split
    · exact ⟨rfl, rfl⟩
    · split
      · exact ⟨rfl, rfl⟩
      · exact ⟨rfl, rfl⟩

theorem expireHolds (s : ShareServer) (name : String) : SameRequests s (s.expireHolds name) := by
  unfold ShareServer.expireHolds
  split
  · exact ⟨rfl, rfl⟩
  · split
    · exact (foldl expire _ s).trans (endHold ..)
    · exact ⟨rfl, rfl⟩

theorem closeNamespace (s : ShareServer) (name : String) (owner : Owner) :
    SameRequests s (s.closeNamespace name owner) := by
  unfold ShareServer.closeNamespace
  split
  · exact ⟨rfl, rfl⟩
  · split
    · exact ⟨rfl, rfl⟩
    · split
      · exact ⟨rfl, rfl⟩
      · exact ((foldl expire _ s).trans (foldl expire ..)).trans ⟨rfl, rfl⟩

theorem claimNamespace (s : ShareServer) (name : String) (owner : Option Owner) (staged : Bool) :
    SameRequests s (s.claimNamespace name owner staged) := by
  unfold ShareServer.claimNamespace
  split
  · exact ⟨rfl, rfl⟩
  · exact ⟨rfl, rfl⟩

theorem takeOver (s : ShareServer) (name : String) (owner : Owner) :
    SameRequests s (s.takeOver name owner) := by
  unfold ShareServer.takeOver
  split
  · exact ⟨rfl, rfl⟩
  · exact ⟨rfl, rfl⟩

theorem placeUnstaged (s : ShareServer) (n : Nat) : SameRequests s (s.placeUnstaged n) := by
  have hput : ∀ (t : ShareServer) (name : String) (owner : Owner),
      SameRequests t ((t.takeOver name owner).putRecord n) := fun t name owner => by
    refine trans (takeOver t name owner) ?_
    exact ⟨rfl, rfl⟩
  unfold ShareServer.placeUnstaged
  dsimp only
  split
  · exact hput ..
  · rename_i held hheld
    refine trans ?_ (hput ..)
    refine trans ?_ (removeRegistration ..)
    exact ⟨rfl, rfl⟩

theorem reserve {name : String} {spec : ServedSpec} {owner : Option Owner} {replaces : List Nat}
    {staged : Bool} (hres : s.reserve name spec owner replaces staged = .ok s') :
    SameRequests s s' := by
  obtain ⟨place, reg, -, -, -, -, -, -, hs'⟩ := reserve_cases hres
  have hclaim := claimNamespace s name owner staged
  rw [hs']
  split
  · exact hclaim
  · refine trans ?_ (placeUnstaged ..)
    exact hclaim

theorem takeOverAll (registrations : List Nat) : ∀ s : ShareServer,
    SameRequests s (takeOverAll registrations s).2 := by
  induction registrations with
  | nil => exact fun s => ⟨rfl, rfl⟩
  | cons n rest ih =>
    intro s
    unfold ShareServer.takeOverAll
    dsimp only
    split
    · exact ⟨rfl, rfl⟩
    · exact (takeOver ..).trans (ih _)

theorem publish (s : ShareServer) (n : Nat) : SameRequests s (s.publish n) := by
  have hadopt : SameRequests s (s.adoptIfHeld n) := by
    unfold adoptIfHeld
    dsimp only
    split
    · exact ⟨rfl, rfl⟩
    · exact ⟨rfl, rfl⟩
  exact ⟨hadopt.1, hadopt.2⟩

theorem publishAll (registrations : List Nat) : ∀ s : ShareServer,
    SameRequests s (publishAll registrations s).1 := by
  induction registrations with
  | nil => exact fun s => ⟨rfl, rfl⟩
  | cons n rest ih => exact fun s => (publish s n).trans (ih _)

theorem commitReservations (s : ShareServer) (registrations : List Nat) :
    SameRequests s (s.commitReservations registrations).2 := by
  have htaken := takeOverAll registrations s
  rcases commitReservations_cases s registrations with ⟨-, -, heq⟩ | ⟨-, -, heq⟩
  · rcases heq with heq | ⟨-, heq⟩
    · rw [heq]
      exact ⟨rfl, rfl⟩
    · rw [heq]
      exact htaken
  · rw [heq]
    exact (htaken.trans (publishAll ..)).trans (foldl removeRegistration ..)

end SameRequests

namespace Queued

/-- A step in which no PUT gets further. -/
theorem keep (h : s.Queued) (ht : s'.Sound ∧ s'.Sane) (ho : s'.Origins) (hs : SameRequests s s')
    (hkeep : ∀ r f, s.Awaits r f → (s.isPending f = true → s.Waits r f) → s'.Awaits r f) :
    s'.Queued := by
  refine ⟨ht.1, ht.2, ho, fun hstarted => ?_, fun put hput r f hwaits => ?_⟩
  · rw [hs.1]
    exact h.idle (hs.2 ▸ hstarted)
  · rw [hs.1] at hput
    exact hkeep r f (h.awaits put hput r f hwaits) fun hp => ⟨hp, put, hput, hwaits⟩

/-- A step in which a PUT that does not wait gets further. -/
theorem setPut (h : s.Queued) {i : Nat} {put : Put} (hput : s.puts[i]? = some put) {state : PutState}
    (hstate : ∀ r f, state = .waiting r f → s.Awaits r f) : (s.setPut i state).Queued := by
  have hsame : SamePlaces s (s.setPut i state) := .of_eq rfl rfl rfl rfl rfl rfl
  refine ⟨hsame.indexed h.sound, hsame.sane h.sane, h.origins.same (.of_eq rfl rfl),
    fun hstarted => ?_, fun put' hput' r f hwaits => ?_⟩
  · have hnone : s.puts = [] := h.idle hstarted
    rw [hnone] at hput
    cases hput
  · obtain ⟨j, hj, hget⟩ := List.mem_iff_getElem.mp hput'
    have hget' : (s.puts.modify i fun put => { put with state := state })[j]? = some put' := by
      rw [← hget]
      exact List.getElem?_eq_getElem hj
    rw [List.getElem?_modify] at hget'
    obtain ⟨old, hold, hnew⟩ := Option.map_eq_some_iff.mp hget'
    split at hnew
    · rw [← hnew] at hwaits
      exact hstate r f hwaits
    · rw [← hnew] at hwaits
      exact h.awaits old (List.mem_of_getElem? hold) r f hwaits

theorem initial : ShareServer.initial.Queued := by
  refine ⟨initial_indexed, initial_sane, ⟨?_, ?_⟩, fun _ => rfl, ?_⟩
  · exact fun n hn => rfl
  · exact fun n p hp => nomatch hp
  · exact fun put hput => nomatch hput

theorem reserve (h : s.Queued) {name : String} {spec : ServedSpec} {owner : Option Owner}
    {replaces : List Nat} {staged : Bool} (hattends : s.Attends (.reserve name spec owner replaces staged))
    (hres : s.reserve name spec owner replaces staged = .ok s') : s'.Queued := by
  have hadmits := admits_of_reserve hres
  refine h.keep (h.sound.reserve h.sane hres) (h.origins.reserve h.sound h.sane hres)
    (.reserve hres) fun r f hawaits hw => ?_
  refine hawaits.reserve h.sound h.sane (fun hp heq => ?_) (fun hstaged hp route hroute => ?_) hres
  · have hlt := (hawaits hp).2.lt h.sane h.origins
    omega
  · subst hstaged
    obtain ⟨hheld, htake⟩ := hattends.waits r f (hw hp) hadmits
    exact ⟨hheld route hroute, htake⟩

theorem commit (h : s.Queued) {registrations : List Nat}
    (hattends : s.Attends (.commitReservations registrations)) :
    (s.commitReservations registrations).2.Queued := by
  refine h.keep (h.sound.commitReservations h.sane registrations) ?_ (.commitReservations ..)
    fun r f hawaits hw => hawaits.commitReservations h.sound h.sane h.origins.published
      fun hp hchecks => hattends.waits r f (hw hp) (firstError_eq hchecks)
  exact h.origins.commitReservations h.sound h.sane registrations

theorem expireHolds (h : s.Queued) {name : String} (hattends : s.Attends (.expireHolds name)) :
    (s.expireHolds name).Queued := by
  refine h.keep (Indexed.expireHolds h.sound h.sane name) (h.origins.same (.expireHolds s name))
    (.expireHolds s name) fun r f hawaits hw => ?_
  exact hawaits.expireHolds h.sound fun hp => hattends.waits r f (hw hp)

theorem closeNamespace (h : s.Queued) {name : String} {owner : Owner}
    (hattends : s.Attends (.closeNamespace name owner)) : (s.closeNamespace name owner).Queued := by
  refine h.keep (Indexed.closeNamespace h.sound h.sane name owner)
    (h.origins.same (.closeNamespace s name owner)) (.closeNamespace s name owner)
    fun r f hawaits hw => ?_
  exact hawaits.closeNamespace h.sound h.sane h.origins.published
    fun hp => hattends.waits r f (hw hp)

theorem holdNamespace (h : s.Queued) {name : String} {owner : Owner} {timeout : Nat}
    (hattends : s.Attends (.holdNamespace name owner timeout)) :
    (s.holdNamespace name owner timeout).Queued := by
  have hsame := holdNamespace_same s name owner timeout
  refine h.keep ⟨hsame.indexed h.sound, hsame.sane h.sane⟩
    (h.origins.same (.holdNamespace s name owner timeout)) (.holdNamespace s name owner timeout)
    fun r f hawaits hw => ?_
  exact hawaits.holdNamespace timeout fun hp => hattends.waits r f (hw hp)

theorem completeReattach (h : s.Queued) {n : Nat} (hattends : s.Attends (.completeReattach n)) :
    (s.completeReattach n).Queued := by
  have hsame := completeReattach_same s n
  refine h.keep ⟨hsame.indexed h.sound, hsame.sane h.sane⟩
    (h.origins.same (.completeReattach s n)) (.completeReattach s n) fun r f hawaits hw => ?_
  exact hawaits.completeReattach fun hp => hattends.waits r f (hw hp)

/-- No PUT waits at a server that has not been started. -/
theorem unstarted (h : s.Queued) (hstarted : s.started = false) (ht : s'.Sound ∧ s'.Sane)
    (ho : s'.Origins) (hs : SameRequests s s') : s'.Queued := by
  refine ⟨ht.1, ht.2, ho, fun _ => ?_, fun put hput => ?_⟩
  · rw [hs.1]
    exact h.idle hstarted
  · rw [hs.1, h.idle hstarted] at hput
    cases hput

/-- `_unregister` goes on. -/
theorem removeNext (h : s.Queued) {task : Nat} (hattends : s.Attends (.removeNext task))
    (hstep : ShareServer.step s (.removeNext task) = some s') : s'.Queued := by
  have ht := h.sound.step h.sane hstep
  have hminds : ∀ {r f}, (s.isPending f = true → s.Waits r f) → s.isPending f = true →
      s.Minds r (.removeNext task) := fun hw hp => hattends.waits _ _ (hw hp)
  dsimp only [ShareServer.step] at hstep
  split at hstep
  · cases hstep
  · rename_i registration n rest closes htask
    obtain rfl := Option.some.inj hstep
    have hremoves : SameOrigins s { s.removeRegistration n with
        unregistering := s.unregistering.set task { registration, rest, closes } } :=
      (SameOrigins.removeRegistration s n).trans (.of_eq rfl rfl)
    refine h.keep ht (h.origins.same hremoves) (SameRequests.removeRegistration s n)
      fun r f hawaits hw => ?_
    have hremoved := hawaits.removeRegistration (n := n) fun hp hopen =>
      (hminds hw hp).1 _ n rest htask rfl hopen
    exact hremoved.calm (.of_eq rfl rfl rfl)
  · rename_i registration closes htask
    obtain rfl := Option.some.inj hstep
    have hdrops : s.dropsBlindly (.removeNext task) =
        if (s.namespaces.lookup (s.registrations registration).inNamespace).any fun ns =>
          closes == some ns.id && ns.owner == (s.registrations registration).owner
        then some (s.registrations registration).inNamespace else none := by
      dsimp only [dropsBlindly]
      rw [htask]
    have hfinish : ∀ r f, s.Awaits r f → (s.isPending f = true → s.Waits r f) →
        (s.finishUnregister { registration, rest := [], closes }).Awaits r f := by
      intro r f hawaits hw
      unfold finishUnregister
      dsimp only
      split
      · rename_i hany
        refine hawaits.eraseNamespace fun hp => (hminds hw hp).2 _ ?_
        rw [hdrops, if_pos hany]
      · exact hawaits
    have hsame : SameRequests s (s.finishUnregister { registration, rest := [], closes }) ∧
        SameOrigins s (s.finishUnregister { registration, rest := [], closes }) := by
      unfold finishUnregister
      dsimp only
      split
      · exact ⟨⟨rfl, rfl⟩, .of_eq rfl rfl⟩
      · exact ⟨⟨rfl, rfl⟩, .of_eq rfl rfl⟩
    refine h.keep ht (h.origins.same (hsame.2.trans (.of_eq rfl rfl)))
      (hsame.1.trans ⟨rfl, rfl⟩) fun r f hawaits hw => ?_
    exact (hfinish r f hawaits hw).calm (.of_eq rfl rfl rfl)

/-- A PUT arrives. -/
theorem put (h : s.Queued) {url : Route} {marker : Option Nat} (hstarted : s.started = true) {n : Nat}
    (hn : s.answering url = some n) : Queued
      { (s.enterPut n).1 with puts := s.puts ++ [{ marker, state := (s.enterPut n).2 }] } := by
  have hcalm := Calm.enterPut s n
  have hrequests := SameRequests.enterPut s n
  have hsame : SamePlaces s
      { (s.enterPut n).1 with puts := s.puts ++ [{ marker, state := (s.enterPut n).2 }] } :=
    (enterPut_same s n).trans (.of_eq rfl rfl rfl rfl rfl rfl)
  have ho := h.origins.same (.of_calm hcalm (enterPut_same s n))
  refine ⟨hsame.indexed h.sound, hsame.sane h.sane, ho.same (.of_eq rfl rfl), fun hnot => ?_,
    fun put hput r f hwaits => ?_⟩
  · have hstill : (s.enterPut n).1.started = false := hnot
    rw [hrequests.2, hstarted] at hstill
    cases hstill
  · have hall : (s.enterPut n).1.Awaits r f := by
      rcases List.mem_append.mp hput with hput | hput
      · exact (h.awaits put hput r f hwaits).calm hcalm
      · rw [List.mem_singleton.mp hput] at hwaits
        refine .enter hwaits fun hclosed => ?_
        have hlive := answering_live h.sound hn
        rw [hlive.1.1] at hclosed
        cases hclosed
    exact hall.calm (.of_eq rfl rfl rfl)

/-- A PUT goes on to the registration that re-attaches. -/
theorem resumePut (h : s.Queued) {i : Nat} (hattends : s.Attends (.resumePut i))
    (hstep : ShareServer.step s (.resumePut i) = some s') : s'.Queued := by
  dsimp only [ShareServer.step] at hstep
  split at hstep
  · rename_i marker m g hput
    split at hstep
    · cases hstep
    · obtain rfl := Option.some.inj hstep
      exact h.setPut hput fun r f hstate => nomatch hstate
    · rename_i n hfuture
      obtain rfl := Option.some.inj hstep
      have hcalm := Calm.enterPut s n
      have hsame := enterPut_same s n
      have hentered : (s.enterPut n).1.Queued := by
        refine h.keep ⟨hsame.indexed h.sound, hsame.sane h.sane⟩
          (h.origins.same (.of_calm hcalm hsame)) (.enterPut s n) fun r f hawaits _ => ?_
        exact hawaits.calm hcalm
      rw [← (SameRequests.enterPut s n).1] at hput
      refine hentered.setPut hput fun r f hstate => .enter hstate fun hclosed => ?_
      rw [(SameRequests.enterPut s n).1] at hput
      exact hattends.resumes i _ m g n rfl hput rfl hfuture hclosed
  · cases hstep

/-- A step that minds all PUTs leaves none behind. -/
theorem step (h : s.Queued) {event : Event} (hattends : s.Attends event)
    (hstep : ShareServer.step s event = some s') : s'.Queued := by
  have ht := h.sound.step h.sane hstep
  have hquiet : ∀ {t : ShareServer}, some t = some s' → event.touchesTables = false →
      SameRequests s t → Calm s t → s'.Queued := by
    intro t heq htouches hrequests hcalm
    have hsame := step_same htouches hstep
    obtain rfl := Option.some.inj heq
    exact h.keep ht (h.origins.same (.of_calm hcalm hsame)) hrequests
      fun r f hawaits _ => hawaits.calm hcalm
  cases event with
  | start =>
    obtain rfl := Option.some.inj hstep
    refine ⟨ht.1, ht.2, h.origins.same (.of_eq rfl rfl), (fun hnot => nomatch hnot), ?_⟩
    exact fun put hput r f hwaits => (h.awaits put hput r f hwaits).calm (.of_eq rfl rfl rfl)
  | tick duration => exact hquiet hstep rfl ⟨rfl, rfl⟩ (.of_eq rfl rfl rfl)
  | reserve name spec owner replaces staged =>
    dsimp only [ShareServer.step] at hstep
    split at hstep
    · rename_i t hres
      obtain rfl := Option.some.inj hstep
      exact h.reserve hattends hres
    · obtain rfl := Option.some.inj hstep
      exact h
  | commitReservations registrations =>
    obtain rfl := Option.some.inj hstep
    exact h.commit hattends
  | activate n =>
    have hcalm := Calm.activate s n
    dsimp only [ShareServer.step] at hstep
    split at hstep
    · exact hquiet hstep rfl (.activate s n) hcalm
    · cases hstep
  | completeReattach n =>
    dsimp only [ShareServer.step] at hstep
    split at hstep
    · obtain rfl := Option.some.inj hstep
      exact h.completeReattach hattends
    · cases hstep
  | deliver n seq checksum expected =>
    dsimp only [ShareServer.step] at hstep
    split at hstep
    · exact hquiet hstep rfl (.deliver s n seq checksum expected) (.deliver s n seq checksum expected)
    · cases hstep
  | beginCloseNamespace name owner =>
    dsimp only [ShareServer.step] at hstep
    split at hstep
    · exact hquiet hstep rfl (.beginCloseNamespace s name owner) (.beginCloseNamespace s name owner)
    · obtain rfl := Option.some.inj hstep
      exact h
  | holdRegistration n =>
    dsimp only [ShareServer.step] at hstep
    split at hstep
    · exact hquiet hstep rfl (.holdRegistration s n) (.holdRegistration s n)
    · cases hstep
  | holdNamespace name owner timeout =>
    dsimp only [ShareServer.step] at hstep
    split at hstep
    · obtain rfl := Option.some.inj hstep
      exact h.holdNamespace hattends
    · obtain rfl := Option.some.inj hstep
      exact h
  | expireHolds name =>
    dsimp only [ShareServer.step] at hstep
    split at hstep
    · obtain rfl := Option.some.inj hstep
      exact h.expireHolds hattends
    · cases hstep
  | closeNamespace name owner =>
    dsimp only [ShareServer.step] at hstep
    split at hstep
    · obtain rfl := Option.some.inj hstep
      exact h.closeNamespace hattends
    · cases hstep
  | releaseNamespace name owner =>
    dsimp only [ShareServer.step] at hstep
    split at hstep
    · cases hstep
    · rename_i hstarted
      obtain rfl := Option.some.inj hstep
      have hsame : SameRequests s (s.releaseNamespace name owner) ∧
          SameOrigins s (s.releaseNamespace name owner) := by
        unfold ShareServer.releaseNamespace
        split
        · exact ⟨⟨rfl, rfl⟩, .of_eq rfl rfl⟩
        · exact ⟨⟨rfl, rfl⟩, .of_eq rfl rfl⟩
      exact h.unstarted (Bool.eq_false_iff.mpr hstarted) ht (h.origins.same hsame.2) hsame.1
  | unregister n closeNamespace =>
    dsimp only [ShareServer.step] at hstep
    split at hstep
    · obtain rfl := Option.some.inj hstep
      refine h.keep ht (h.origins.same (.of_eq rfl rfl)) ⟨rfl, rfl⟩ fun r f hawaits _ => ?_
      exact hawaits.calm (.of_eq rfl rfl rfl)
    · rename_i hstarted
      obtain rfl := Option.some.inj hstep
      exact h.unstarted (Bool.eq_false_iff.mpr hstarted) ht (h.origins.same (.removeRegistration s n))
        (.removeRegistration s n)
  | removeNext task => exact h.removeNext hattends hstep
  | put url marker =>
    dsimp only [ShareServer.step] at hstep
    split at hstep
    · cases hstep
    · rename_i hstarted
      have hstarted : s.started = true := by simpa using hstarted
      split at hstep
      · obtain rfl := Option.some.inj hstep
        refine ⟨ht.1, ht.2, h.origins.same (.of_eq rfl rfl), fun hnot => ?_,
          fun put hput r f hwaits => ?_⟩
        · rw [hstarted] at hnot
          cases hnot
        · rcases List.mem_append.mp hput with hput | hput
          · exact (h.awaits put hput r f hwaits).calm (.of_eq rfl rfl rfl)
          · rw [List.mem_singleton.mp hput] at hwaits
            cases hwaits
      · rename_i n hn
        obtain rfl := Option.some.inj hstep
        exact h.put hstarted hn
  | resumePut i => exact h.resumePut hattends hstep
  | timeoutPut i =>
    dsimp only [ShareServer.step] at hstep
    split at hstep
    · rename_i m g marker hput
      obtain rfl := Option.some.inj hstep
      exact h.setPut hput fun r f hstate => nomatch hstate
    · cases hstep
  | installPut i value =>
    dsimp only [ShareServer.step] at hstep
    split at hstep
    · rename_i marker n hput
      obtain rfl := Option.some.inj hstep
      have hcalm := Calm.installPut s n marker value
      have hsame := installPut_same s n marker value
      have hinstalled : (s.installPut n marker value).1.Queued := by
        refine h.keep ⟨hsame.indexed h.sound, hsame.sane h.sane⟩
          (h.origins.same (.of_calm hcalm hsame)) (.installPut s n marker value)
          fun r f hawaits _ => ?_
        exact hawaits.calm hcalm
      rw [← (SameRequests.installPut s n marker value).1] at hput
      exact hinstalled.setPut hput fun r f hstate => nomatch hstate
    · cases hstep

end Queued

/-! ## Runs -/

/-- No PUT waits for a registration that is not suspended. -/
def Released (s : ShareServer) : Prop :=
  ∀ put ∈ s.puts, ∀ r f, put.state = .waiting r f → s.isPending f = true → s.Suspended r

/-- As long as the PUTs that wait are minded, each is released by what ends its wait. -/
theorem reachable_released (h : Transition.Reachable step initial Attends s) : s.Released := by
  have hqueued : s.Queued := h.invariant Queued.initial fun _ _ _ hq hattends hstep =>
    hq.step hattends hstep
  intro put hput r f hwaits hp
  exact (hqueued.awaits put hput r f hwaits hp).2

/-- The registration that a PUT waits for. -/
def waitsAt (put : Put) : Option Nat :=
  match put.state with
  | .waiting r _ => some r
  | _ => none

/-- A hand-over in order: what is replaced while PUTs wait is what the new registrations re-attach to,
and no PUT has arrived at these before. -/
def InOrder (s : ShareServer) : Event → Prop
  | .completeReattach n => ∀ put ∈ s.puts, waitsAt put ≠ some n
  | .commitReservations registrations =>
    (∀ put ∈ s.puts, ∀ r ∈ waitsAt put, s.Holding r) ∧
    ∀ n ∈ registrations, ∀ old ∈ s.replacedBy n,
      (s.registrations old).reattachedFrom = none ∧ s.heldFor n = some old
  | .reserve _ _ _ _ false | .holdNamespace .. | .expireHolds _ | .closeNamespace .. | .removeNext _ =>
    ∀ put ∈ s.puts, waitsAt put = none
  | .resumePut i =>
    match s.puts[i]? with
    | some { state := .waiting _ f, .. } => ∀ n ∈ s.futures f, ∀ r ∈ n,
      (s.registrations r).closed = false
    | _ => True
  | _ => True

theorem Waits.waitsAt (h : s.Waits r f) : ∃ put ∈ s.puts, waitsAt put = some r := by
  obtain ⟨-, put, hput, hwaits⟩ := h
  refine ⟨put, hput, ?_⟩
  unfold ShareServer.waitsAt
  rw [hwaits]

theorem InOrder.attends {event : Event} (h : s.InOrder event) : s.Attends event := by
  have hnone : (∀ put ∈ s.puts, waitsAt put = none) → ∀ r f, ¬ s.Waits r f := by
    intro hall r f hw
    obtain ⟨put, hput, hat⟩ := hw.waitsAt
    rw [hall put hput] at hat
    cases hat
  refine ⟨fun r f hw => ?_, fun i put m g n hevent hput hwaits hfuture hclosed => ?_⟩
  · cases event with
    | completeReattach n =>
      rintro rfl
      obtain ⟨put, hput, hat⟩ := hw.waitsAt
      exact absurd hat (h put hput)
    | commitReservations registrations =>
      intro _ n hn
      obtain ⟨put, hput, hat⟩ := hw.waitsAt
      refine ⟨fun _ _ => ⟨r, h.1 put hput r hat, Or.inl rfl⟩, fun old hold => ?_⟩
      obtain ⟨hpred, hheld⟩ := h.2 n hn old hold
      refine ⟨?_, fun hr => ⟨n, hn, hr ▸ hheld⟩⟩
      rw [hpred]
      exact nofun
    | reserve name spec owner replaces staged =>
      cases staged with
      | true => trivial
      | false => exact absurd hw (hnone h r f)
    | holdNamespace name owner timeout => exact absurd hw (hnone h r f)
    | expireHolds name => exact absurd hw (hnone h r f)
    | closeNamespace name owner => exact absurd hw (hnone h r f)
    | removeNext task => exact absurd hw (hnone h r f)
    | _ => trivial
  · subst hevent
    obtain ⟨marker, state⟩ := put
    dsimp only at hwaits
    subst hwaits
    dsimp only [InOrder] at h
    rw [hput] at h
    have hopen := h (some n) hfuture n rfl
    rw [hclosed] at hopen
    cases hopen

instance (s : ShareServer) (n : Nat) : Decidable (s.Holding n) := by
  unfold Holding
  infer_instance

instance (s : ShareServer) (event : Event) : Decidable (s.InOrder event) := by
  delta InOrder
  refine Event.casesOn event ?_ ?_ (fun name spec owner replaces staged => ?_) ?_ ?_ ?_ ?_ ?_ ?_ ?_ ?_ ?_ ?_ ?_ ?_ ?_ (fun put => ?_) ?_ ?_
  case refine_3 => exact Bool.casesOn staged inferInstance inferInstance
  case refine_17 =>
    dsimp only
    refine Option.casesOn s.puts[put]? inferInstance fun put => ?_
    refine Put.casesOn put fun marker state => ?_
    refine PutState.casesOn state ?_ ?_ ?_
    all_goals
      intros
      infer_instance
  all_goals
    intros
    infer_instance

/-- A PUT arrives while the namespace is held; it goes on when another Context has re-attached. -/
def reattachWhilePut : List Event :=
  shareOnce ++ [.beginCloseNamespace "ctx" (.context 0), .holdNamespace "ctx" (.context 0) 10,
    .put ["ctx", "a"] none,
    .reserve "ctx" { path := ["a"], readonly := false } (some (.context 1)) [] true,
    .commitReservations [1], .activate 1, .completeReattach 1, .resumePut 0]

theorem reattachWhilePut_runs : (Transition.run step reattachWhilePut initial).isSome = true := by
  decide

theorem reachable_released_reattachWhilePut :
    ((Transition.run step reattachWhilePut initial).get reattachWhilePut_runs).Released := by
  have hrun : Transition.Reachable step initial InOrder
      ((Transition.run step reattachWhilePut initial).get reattachWhilePut_runs) :=
    .of_run .start (by decide) reattachWhilePut_runs
  exact reachable_released (hrun.mono fun _ _ h => h.attends)

/-- The PUT arrives at the registration that re-attaches. -/
def putWhileReattaching : List Event :=
  [.holdNamespace "ctx" (.context 0) 10,
    .reserve "ctx" { path := ["a"], readonly := false } (some (.context 1)) [] false,
    .put ["ctx", "a"] none, .activate 1, .completeReattach 1]

theorem putWhileReattaching_runs :
    (Transition.run step putWhileReattaching shared).isSome = true := by decide

def putLeftWaiting : ShareServer :=
  (Transition.run step putWhileReattaching shared).get putWhileReattaching_runs

theorem not_reachable_released :
    ¬ ∀ s, Transition.Reachable step initial (fun _ _ => True) s → s.Released := by
  intro h
  have hshared : Transition.Reachable step initial (fun _ _ => True) shared :=
    shared_reachable fun _ _ _ => trivial
  have hreach : Transition.Reachable step initial (fun _ _ => True) putLeftWaiting :=
    .of_run hshared (by decide) putWhileReattaching_runs
  have hkept := hreach.invariant (I := fun s => s.Sound ∧ s.Sane) ⟨initial_indexed, initial_sane⟩
    fun _ _ _ hk _ hstep => hk.1.step hk.2 hstep
  have hsuspended := h _ hreach { marker := none, state := .waiting 1 1 } (by decide) 1 1 rfl
    (by decide)
  rcases hsuspended with ⟨n, hn, hor⟩ | ⟨-, hclosing⟩
  · have hlt : n < 2 := by
      by_contra hle
      have hunused := hkept.2.unused n (Nat.le_of_not_lt hle)
      rw [hn.1] at hunused
      cases hunused
    -- the old registration is closed, and the new one has re-attached
    have hnone : ∀ n < 2, ¬ putLeftWaiting.Holding n := by
      decide
    exact hnone n hlt hn
  · revert hclosing
    decide

end ShareServer

end SeamlessWorkflow
