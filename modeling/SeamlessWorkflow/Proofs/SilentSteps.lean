import SeamlessWorkflow.Proofs.UpdateLists

/-!
# Steps that the clients of a namespace are not told of

A step of the server that broadcasts nothing in a namespace has to leave the list of the namespace as it
is. Most steps do; those that publish, hold or remove registrations do so on a condition.
-/

namespace SeamlessWorkflow

namespace ShareServer

variable {s s' s'' : ShareServer} {name : String} {key : List String} {r : Nat}

/-- A new registration takes over what is listed in its place: the listed registration is the one that
it adopts, with a marker that is not below those it looks at, and what it replaces is not listed
elsewhere. -/
structure TakesPlace (s : ShareServer) (watched : String → Bool) (name : String) (spec : ServedSpec)
    (route : Route) (replaced : List Nat) (markers : List Nat) : Prop where
  listed : watched name = true →
    (s.recordOf name spec.path).filter s.serves = s.heldRegistrationFor name spec route
  markers : watched name = true → ∀ held ∈ s.heldRegistrationFor name spec route, ∀ m ∈ markers,
    m ≤ (s.registrations held).marker
  elsewhere : ∀ old ∈ replaced, watched (s.registrations old).inNamespace = true →
    s.serves old = true → (s.registrations old).inNamespace = name

/-- An event that changes the lists of the watched namespaces by what it broadcasts only. -/
def Silent (s : ShareServer) (watched : String → Bool) (tells : Bool) : Event → Prop
  | .reserve name spec _ _ staged =>
    staged = true ∨
      match routeFor name spec with
      | .ok route => s.TakesPlace watched name spec route (s.heldRegistrationFor name spec route).toList
          [s.markerFloors route]
      | .error _ => True
  | .commitReservations registrations => ∀ r ∈ registrations,
    (watched (s.registrations r).inNamespace = true → s.serves r = false) ∧
      s.TakesPlace watched (s.registrations r).inNamespace (s.registrations r).spec
        (s.registrations r).route (s.replacedBy r)
        ((s.registrations r).marker :: s.markerFloors (s.registrations r).route ::
          (s.replacedBy r).map fun old => (s.registrations old).marker)
  | .completeReattach r => watched (s.registrations r).inNamespace = true →
    (s.registrations r).reattachedFrom = none ∨ (s.registrations r).active = true ∨
      tells = true ∨ (s.registrations r).closed = true
  | .deliver r _ checksum _ => watched (s.registrations r).inNamespace = true →
    checksum ≠ (s.registrations r).checksum → s.ListedAlone r
  | .installPut i value =>
    match s.puts[i]? with
    | some { state := .ready r, .. } => watched (s.registrations r).inNamespace = true →
      value ≠ (s.registrations r).checksum → s.ListedAlone r
    | _ => True
  | .holdRegistration r => watched (s.registrations r).inNamespace = true →
    s.recordOf (s.registrations r).inNamespace (s.registrations r).spec.path = some r →
      (s.registrations r).closed = true ∨ s.serves r = true
  | .holdNamespace name owner _ => watched name = true →
    ∀ ns ∈ s.namespaces.lookup name, ns.owner = owner → ∀ r ∈ s.owned ns, s.serves r = true
  | .removeNext task => ∀ t ∈ s.unregistering[task]?, ∀ r ∈ t.rest.head?,
    watched (s.registrations r).inNamespace = true →
      s.recordOf (s.registrations r).inNamespace (s.registrations r).spec.path = some r →
        s.serves r = false ∨ UpdateServer.announcement s tells (.removeNext task) =
          some ((s.registrations r).inNamespace, .shares)
  | _ => True

instance (s : ShareServer) (r : Nat) : Decidable (s.ListedAlone r) := by
  unfold ListedAlone
  infer_instance

instance (s : ShareServer) (watched : String → Bool) (name : String) (spec : ServedSpec)
    (route : Route) (replaced markers : List Nat) :
    Decidable (s.TakesPlace watched name spec route replaced markers) :=
  decidable_of_iff (_ ∧ _ ∧ _) ⟨fun h => ⟨h.1, h.2.1, h.2.2⟩,
    fun h => ⟨h.listed, h.markers, h.elsewhere⟩⟩

instance (s : ShareServer) (watched : String → Bool) (tells : Bool) (event : Event) :
    Decidable (s.Silent watched tells event) := by
  delta Silent
  refine Event.casesOn event ?_ ?_ (fun name spec owner replaces staged => ?_) ?_ ?_ ?_ ?_ ?_ ?_ ?_ ?_ ?_ ?_ ?_ ?_ ?_ ?_ ?_ fun put value => ?_
  case refine_3 =>
    dsimp only
    have hroute : Decidable (match routeFor name spec with
        | .ok route => s.TakesPlace watched name spec route (s.heldRegistrationFor name spec route).toList
            [s.markerFloors route]
        | .error _ => True) :=
      Except.casesOn (routeFor name spec) (fun _ => inferInstance) fun _ => inferInstance
    infer_instance
  case refine_19 =>
    dsimp only
    refine Option.casesOn s.puts[put]? inferInstance fun put => ?_
    refine Put.casesOn put fun marker state => ?_
    refine PutState.casesOn state ?_ ?_ ?_
    all_goals
      intros
      infer_instance
  all_goals
    intros
    infer_instance

/-! ## Lists that stay -/

theorem listing_congr (hrecord : s'.recordOf name key = s.recordOf name key)
    (hshown : ∀ r, s.recordOf name key = some r →
      s'.serves r = s.serves r ∧ s'.version r = s.version r) :
    s'.listing name key = s.listing name key := by
  unfold ShareServer.listing
  rw [hrecord]
  cases hr : s.recordOf name key with
  | none => rfl
  | some r =>
    obtain ⟨hserves, hversion⟩ := hshown r hr
    by_cases hs : s.serves r = true
    · rw [Option.filter_some_pos hs, Option.filter_some_pos (hserves.trans hs)]
      exact congrArg some hversion
    · have hs := Bool.eq_false_iff.mpr hs
      rw [Option.filter_some_neg hs, Option.filter_some_neg (hserves.trans hs)]
      rfl

/-- The records of a namespace are the same, and so is what they show. -/
structure SameList (s s' : ShareServer) (name : String) : Prop where
  records : ∀ key, s'.recordOf name key = s.recordOf name key
  serves : ∀ key r, s.recordOf name key = some r → s'.serves r = s.serves r
  version : ∀ key r, s.recordOf name key = some r → s'.version r = s.version r

namespace SameList

theorem listing (h : SameList s s' name) : s'.listing name = s.listing name := by
  funext key
  exact listing_congr (h.records key) fun r hr => ⟨h.serves key r hr, h.version key r hr⟩

theorem of_eq (hrecords : ∀ key, s'.recordOf name key = s.recordOf name key)
    (hregs : s'.registrations = s.registrations) : SameList s s' name := by
  refine ⟨hrecords, fun key r _ => ?_, fun key r _ => ?_⟩
  · unfold ShareServer.serves
    rw [hregs]
  · unfold ShareServer.version
    rw [hregs]

theorem trans (h : SameList s s' name) (h' : SameList s' s'' name) : SameList s s'' name where
  records key := (h'.records key).trans (h.records key)
  serves key r hr := (h'.serves key r ((h.records key).trans hr)).trans (h.serves key r hr)
  version key r hr := (h'.version key r ((h.records key).trans hr)).trans (h.version key r hr)

theorem modify {f : ShareRegistration → ShareRegistration}
    (h : ∀ key, s.recordOf name key = some r →
      (s.modify r f).serves r = s.serves r ∧ (s.modify r f).version r = s.version r) :
    SameList s (s.modify r f) name := by
  have hother : ∀ i, i ≠ r → (s.modify r f).registrations i = s.registrations i := by
    intro i hi
    rw [modify_registrations, if_neg hi]
  refine ⟨fun _ => rfl, fun key i hi => ?_, fun key i hi => ?_⟩
  · by_cases hir : i = r
    · subst hir
      exact (h key hi).1
    · unfold ShareServer.serves
      rw [hother i hir]
  · by_cases hir : i = r
    · subst hir
      exact (h key hi).2
    · unfold ShareServer.version
      rw [hother i hir]

/-- A registration changes in what is not shown. -/
theorem modify_hidden {f : ShareRegistration → ShareRegistration}
    (hserves : (s.modify r f).serves r = s.serves r)
    (hversion : (s.modify r f).version r = s.version r) : SameList s (s.modify r f) name :=
  modify fun _ _ => ⟨hserves, hversion⟩

theorem complete (s : ShareServer) (future result : Option Nat) :
    SameList s (s.complete future result) name := by
  refine of_eq ((complete_same ..).tables name) ?_
  unfold ShareServer.complete
  split
  · rfl
  · split <;> rfl

theorem createFuture (s : ShareServer) (r : Nat) : SameList s (s.createFuture r) name := by
  have hmodify : SameList s (s.modify r fun reg => { reg with reattachFuture := some s.futureCount })
      name := by
    refine modify_hidden ?_ ?_
    · simp [ShareServer.serves, modify_registrations]
    · simp [ShareServer.version, modify_registrations]
  exact hmodify.trans (of_eq (fun _ => rfl) rfl)

theorem renewFuture (s : ShareServer) (r : Nat) : SameList s (s.renewFuture r) name := by
  unfold ShareServer.renewFuture
  split
  · exact of_eq (fun _ => rfl) rfl
  · exact createFuture s r

theorem foldl {f : ShareServer → Nat → ShareServer} (hf : ∀ s r, SameList s (f s r) name) :
    ∀ (l : List Nat) (s : ShareServer), SameList s (l.foldl f s) name
  | [], _ => of_eq (fun _ => rfl) rfl
  | r :: l, s => (hf s r).trans (foldl hf l (f s r))

theorem modifyNamespace {n : String} {f : ShareNamespace → ShareNamespace}
    (hf : ∀ ns, (f ns).records = ns.records) : SameList s (s.modifyNamespace n f) name :=
  of_eq ((SamePlaces.modifyNamespace s n hf).tables name) rfl

theorem beginCloseNamespace (s : ShareServer) (n : String) (owner : Owner) :
    SameList s (s.beginCloseNamespace n owner) name := by
  unfold ShareServer.beginCloseNamespace
  split
  · exact of_eq (fun _ => rfl) rfl
  · split
    · exact of_eq (fun _ => rfl) rfl
    · refine trans ?_ (foldl renewFuture ..)
      exact modifyNamespace fun _ => rfl

theorem enterPut (s : ShareServer) (r : Nat) : SameList s (s.enterPut r).1 name := by
  unfold ShareServer.enterPut
  dsimp only
  split
  · split
    · exact of_eq (fun _ => rfl) rfl
    · exact createFuture s r
  · split
    · exact of_eq (fun _ => rfl) rfl
    · exact of_eq (fun _ => rfl) rfl

/-- A registration is held that is shown already. -/
theorem hold {f : ShareRegistration → ShareRegistration}
    (hf : ∀ reg, (f reg).held = true ∧ (f reg).closed = reg.closed ∧ (f reg).marker = reg.marker ∧
      (f reg).checksum = reg.checksum)
    (h : ∀ key, s.recordOf name key = some r → s.serves r = true) :
    SameList s ((s.modify r f).renewFuture r) name := by
  refine trans (modify fun key hr => ?_) (renewFuture ..)
  have hserves := h key hr
  obtain ⟨hheld, hclosed, hmarker, hchecksum⟩ := hf (s.registrations r)
  unfold ShareServer.serves ShareServer.version at *
  dsimp only at *
  rw [modify_registrations, if_pos rfl, hheld, hclosed, hmarker, hchecksum]
  rw [Bool.and_eq_true] at hserves
  refine ⟨?_, rfl⟩
  rw [hserves.1, hserves.2, Bool.or_true, Bool.true_or]

theorem foldl_holdUntil (deadline : Nat) (l : List Nat) : ∀ {s : ShareServer},
    (∀ r ∈ l, ∀ key, s.recordOf name key = some r → s.serves r = true) →
      SameList s (l.foldl (holdUntil deadline) s) name := by
  induction l with
  | nil => exact fun _ => of_eq (fun _ => rfl) rfl
  | cons r l ih =>
    intro s h
    have hfirst : SameList s (ShareServer.holdUntil deadline s r) name :=
      hold (fun _ => ⟨rfl, rfl, rfl, rfl⟩) (h r (List.mem_cons_self ..))
    refine hfirst.trans (ih fun i hi key hr => ?_)
    rw [hfirst.records] at hr
    rw [hfirst.serves key i hr]
    exact h i (List.mem_cons_of_mem _ hi) key hr

theorem eraseNamespace {n : String} (hne : name ≠ n) :
    SameList s { s with namespaces := s.namespaces.erase n } name := by
  refine of_eq (fun key => ?_) rfl
  unfold recordOf
  dsimp only
  rw [AList.lookup_erase_ne hne]

theorem takeOverAll (registrations : List Nat) (s : ShareServer) :
    SameList s (takeOverAll registrations s).2 name :=
  of_eq ((takeOverAll_same registrations s).tables name) (takeOverAll_registrations registrations s)

/-- A value is installed that the registration has, or in a registration that is not recorded. -/
theorem install {checksum : Option Checksum} (h : ∀ key, s.recordOf name key = some r →
    checksum = (s.registrations r).checksum) : SameList s (s.install r checksum) name := by
  by_cases hchanged : checksum = (s.registrations r).checksum
  · unfold ShareServer.install
    dsimp only
    rw [if_pos hchanged]
    have hmodify : SameList s (s.modify r fun reg =>
        { reg with ws := reg.ws + 1, fingerprint := some (s.fingerprints + 1) }) name := by
      refine modify_hidden ?_ ?_
      · simp [ShareServer.serves, modify_registrations]
      · simp [ShareServer.version, modify_registrations]
    exact hmodify.trans (of_eq (fun _ => rfl) rfl)
  · have hnot : ∀ key, s.recordOf name key ≠ some r := fun key hr => hchanged (h key hr)
    refine ⟨install_recordOf s r checksum name, fun key i _ => ?_, fun key i hi => ?_⟩
    · exact (install_registrations s hchanged i).1
    · rw [(install_registrations s hchanged i).2, if_neg]
      rintro rfl
      exact hnot key hi

end SameList

theorem Sound.placed (hs : s.Sound) (hr : s.recordOf name key = some r) :
    (s.registrations r).inNamespace = name ∧ (s.registrations r).spec.path = key := by
  have hplace := (hs.table.sound (k := (name, key)) hr).2
  exact Prod.mk.inj (Option.some.inj hplace)

theorem Sound.ne_count (hs : s.Sound) (hsane : s.Sane) (hr : s.recordOf name key = some r) :
    r ≠ s.registrationCount := by
  rintro rfl
  exact hsane.not_live (hs.table.sound (k := (name, key)) hr).1

/-! ## Removing -/

theorem removeRegistration_registrations (s : ShareServer) (r : Nat) :
    (∀ i, i ≠ r → (s.removeRegistration r).registrations i = s.registrations i) ∧
      ((s.removeRegistration r).registrations r).closed = true := by
  have hremoved : (∀ i, i ≠ r → (s.removeRecords r).registrations i = s.registrations i) ∧
      ((s.removeRecords r).registrations r).closed = true := by
    unfold ShareServer.removeRecords
    dsimp only
    refine ⟨fun i hi => ?_, ?_⟩
    · rw [modify_registrations, if_neg hi]
    · rw [modify_registrations, if_pos rfl]
  unfold ShareServer.removeRegistration
  dsimp only
  split
  · rename_i hclosed
    exact ⟨fun _ _ => rfl, hclosed⟩
  · split
    · exact hremoved
    · exact hremoved

theorem removeRegistration_serves (s : ShareServer) (r : Nat) :
    (s.removeRegistration r).serves r = false := by
  simp [ShareServer.serves, (removeRegistration_registrations s r).2]

/-- The list stays when a registration is removed that is not listed. -/
theorem listing_removeRegistration (h : s.recordOf name key = some r → s.serves r = false) :
    (s.removeRegistration r).listing name key = s.listing name key := by
  obtain ⟨hother, -⟩ := removeRegistration_registrations s r
  have hserves := removeRegistration_serves s r
  have hrecords := (shrinks_removeRegistration s r).records name key
  by_cases hr : s.recordOf name key = some r
  · -- before and after, at most the registration itself is recorded
    have hold : s.listing name key = none := by
      unfold ShareServer.listing
      rw [hr, Option.filter_some_neg (h hr), Option.map_none]
    rw [hold]
    unfold ShareServer.listing
    cases hrecord : (s.removeRegistration r).recordOf name key with
    | none => rfl
    | some i =>
      have hi := hrecords i hrecord
      rw [hr] at hi
      obtain rfl := Option.some.inj hi
      rw [Option.filter_some_neg hserves, Option.map_none]
  · refine listing_congr ?_ fun i hi => ?_
    · cases hrecord : s.recordOf name key with
      | none =>
        cases hnew : (s.removeRegistration r).recordOf name key with
        | none => rfl
        | some i =>
          rw [hrecords i hnew] at hrecord
          cases hrecord
      | some i =>
        refine removeRegistration_recordOf hrecord ?_
        rintro rfl
        exact hr hrecord
    · have hir : i ≠ r := by
        rintro rfl
        exact hr hi
      unfold ShareServer.serves ShareServer.version
      rw [hother i hir]
      exact ⟨rfl, rfl⟩

/-- The list stays when registrations are removed none of which is listed. -/
theorem listing_foldl_removeRegistration (l : List Nat) : ∀ {s : ShareServer},
    (∀ r ∈ l, s.recordOf name key = some r → s.serves r = false) →
      (l.foldl removeRegistration s).listing name key = s.listing name key := by
  induction l with
  | nil => exact fun _ => rfl
  | cons r l ih =>
    intro s h
    refine (ih fun i hi hrecord => ?_).trans
      (listing_removeRegistration (h r (List.mem_cons_self ..)))
    obtain ⟨hother, -⟩ := removeRegistration_registrations s r
    by_cases hir : i = r
    · rw [hir]
      exact removeRegistration_serves s r
    · have hold := (shrinks_removeRegistration s r).records name key i hrecord
      have hfalse := h i (List.mem_cons_of_mem _ hi) hold
      unfold ShareServer.serves at hfalse ⊢
      rw [hother i hir]
      exact hfalse

theorem listing_foldl_expire (l : List Nat) : ∀ {s : ShareServer},
    (∀ r ∈ l, s.recordOf name key = some r → s.serves r = false) →
      (l.foldl expire s).listing name key = s.listing name key := by
  induction l with
  | nil => exact fun _ => rfl
  | cons r l ih =>
    intro s h
    have hcomplete : SameList s (s.complete (s.registrations r).reattachFuture none) name :=
      .complete ..
    have hexpired : (s.expire r).listing name key = s.listing name key := by
      rw [← hcomplete.listing]
      refine listing_removeRegistration fun hr => ?_
      rw [hcomplete.records] at hr
      rw [hcomplete.serves key r hr]
      exact h r (List.mem_cons_self ..) hr
    refine (ih fun i hi hrecord => ?_).trans hexpired
    obtain ⟨hother, -⟩ :=
      removeRegistration_registrations (s.complete (s.registrations r).reattachFuture none) r
    by_cases hir : i = r
    · rw [hir]
      exact removeRegistration_serves ..
    · have hold := (shrinks_removeRegistration _ r).records name key i hrecord
      rw [hcomplete.records] at hold
      have hfalse := h i (List.mem_cons_of_mem _ hi) hold
      rw [← hcomplete.serves key i hold] at hfalse
      unfold ShareServer.expire ShareServer.serves
      unfold ShareServer.serves at hfalse
      rw [hother i hir]
      exact hfalse

/-! ## Re-attaching -/

/-- A registration that is to re-attach is held or re-attaching. -/
def Rejoining (s : ShareServer) : Prop :=
  ∀ r, (s.registrations r).reattachedFrom ≠ none → (s.registrations r).closed = false → s.Holding r

namespace Rejoining

theorem of_eq (h : s.Rejoining) (hregs : s'.registrations = s.registrations) : s'.Rejoining := by
  unfold Rejoining Holding
  rw [hregs]
  exact h

theorem calm (h : s.Rejoining) (hc : Calm s s') : s'.Rejoining := by
  intro r hfrom hclosed
  rw [hc.predecessor] at hfrom
  rw [hc.closed] at hclosed
  exact hc.holding r (h r hfrom hclosed)

/-- One registration changes. -/
theorem update (h : s.Rejoining) (hother : ∀ i, i ≠ r → s'.registrations i = s.registrations i)
    (hself : (s'.registrations r).reattachedFrom ≠ none → (s'.registrations r).closed = false →
      s'.Holding r) : s'.Rejoining := by
  intro i hfrom hclosed
  by_cases hi : i = r
  · subst hi
    exact hself hfrom hclosed
  · unfold Holding
    rw [hother i hi] at hfrom hclosed ⊢
    exact h i hfrom hclosed

theorem foldl {f : ShareServer → Nat → ShareServer} (hf : ∀ s r, s.Rejoining → (f s r).Rejoining) :
    ∀ (l : List Nat) {s : ShareServer}, s.Rejoining → (l.foldl f s).Rejoining
  | [], _, h => h
  | r :: l, s, h => foldl hf l (hf s r h)

theorem removeRegistration (h : s.Rejoining) (r : Nat) : (s.removeRegistration r).Rejoining := by
  obtain ⟨hother, hclosed⟩ := removeRegistration_registrations s r
  refine h.update hother fun _ hopen => ?_
  rw [hclosed] at hopen
  cases hopen

theorem expire (h : s.Rejoining) (r : Nat) : (s.expire r).Rejoining :=
  (h.calm (.complete ..)).removeRegistration r

theorem completeReattach (h : s.Rejoining) (r : Nat) : (s.completeReattach r).Rejoining := by
  unfold ShareServer.completeReattach
  dsimp only
  split
  · exact h
  · split
    · exact h
    · refine calm (h.update (r := r) (fun i hi => ?_) fun hfrom => ?_) (.complete ..)
      · rw [modify_registrations, if_neg hi]
      · rw [modify_registrations, if_pos rfl] at hfrom
        exact absurd rfl hfrom

theorem endHold (h : s.Rejoining) (n : String) : (s.endHold n).Rejoining := by
  unfold ShareServer.endHold
  dsimp only
  split
  · exact h.of_eq rfl
  · split
    · exact h.of_eq rfl
    · split
      · exact h.of_eq rfl
      · exact h.of_eq rfl

theorem holdNamespace (h : s.Rejoining) (n : String) (owner : Owner) (timeout : Nat) :
    (s.holdNamespace n owner timeout).Rejoining := by
  unfold ShareServer.holdNamespace
  split
  · exact h
  · split
    · exact h
    · refine calm (s := s.modifyNamespace n _) ?_ (.foldl (Calm.holdUntil _) ..)
      exact h.of_eq rfl

/-- A registration adopts a held one. -/
theorem adopt (h : s.Rejoining) (r held : Nat) : (s.adoptHeldRegistration r held).Rejoining := by
  unfold ShareServer.adoptHeldRegistration
  refine h.update (r := r) (fun i hi => ?_) fun _ hclosed => ⟨hclosed, Or.inl ?_⟩
  · rw [modify_registrations, if_neg hi]
  · rw [modify_registrations, if_pos rfl]

theorem reserve (h : s.Rejoining) {n : String} {spec : ServedSpec} {owner : Option Owner}
    {replaces : List Nat} {staged : Bool} (hres : s.reserve n spec owner replaces staged = .ok s') :
    s'.Rejoining := by
  obtain ⟨place, reg, hreg, -, -, -, -, -, hs'⟩ := reserve_cases hres
  have ht := h.calm (Calm.claimNamespace s n owner staged)
  have halloc : ((s.claimNamespace n owner staged).allocate reg).Rejoining := by
    refine ht.update (r := (s.claimNamespace n owner staged).registrationCount) (fun i hi => ?_)
      fun hfrom _ => ?_
    · rw [allocate_registrations, if_neg hi]
    · rw [allocate_registrations, if_pos rfl, hreg] at hfrom
      exact absurd rfl hfrom
  rw [hs']
  split
  · exact halloc.of_eq rfl
  · have hend : ∀ (u : ShareServer) (o : Owner) (i : Nat) (m : String), u.Rejoining →
        ((u.takeOver m o).putRecord i).Rejoining := fun u o i m hu =>
      hu.of_eq (takeOver_registrations ..)
    unfold ShareServer.placeUnstaged
    dsimp only
    split
    · exact hend _ _ _ _ halloc
    · exact hend _ _ _ _ (removeRegistration (adopt halloc _ _) _)

theorem publishAll (registrations : List Nat) : ∀ {s : ShareServer}, s.Rejoining →
    (publishAll registrations s).1.Rejoining := by
  induction registrations with
  | nil => exact fun h => h
  | cons n rest ih =>
    intro s h
    refine ih ?_
    obtain ⟨reg, he, hregs, -⟩ := publish_enters s n
    refine h.update (r := n) (fun i hi => ?_) fun hfrom hclosed => ⟨hclosed, ?_⟩
    · rw [hregs, Function.update_of_ne hi]
    · rw [hregs, Function.update_self] at hfrom hclosed ⊢
      cases hheld : s.heldFor n with
      | some held => exact Or.inl (he.adopted held hheld).2.2.1
      | none =>
        obtain ⟨-, hheldSame, hre, hpred⟩ := he.unheld hheld
        rw [hpred] at hfrom
        rw [he.closed] at hclosed
        rw [hheldSame, hre]
        exact (h n hfrom hclosed).2

theorem commitReservations (h : s.Rejoining) (registrations : List Nat) :
    (s.commitReservations registrations).2.Rejoining := by
  have htaken := h.of_eq (takeOverAll_registrations registrations s)
  rcases commitReservations_cases s registrations with ⟨-, -, heq⟩ | ⟨-, -, heq⟩
  · rcases heq with heq | ⟨-, heq⟩
    · rw [heq]
      exact h
    · rw [heq]
      exact htaken
  · rw [heq]
    exact (htaken.publishAll registrations).foldl (fun _ r hs => hs.removeRegistration r) _

theorem step (h : s.Rejoining) {event : Event} (hstep : s.step event = some s') : s'.Rejoining := by
  have hsome : ∀ {t : ShareServer}, some t = some s' → t.Rejoining → s'.Rejoining :=
    fun heq ht => Option.some.inj heq ▸ ht
  cases event with
  | start => exact hsome hstep (h.of_eq rfl)
  | tick duration => exact hsome hstep (h.of_eq rfl)
  | reserve n spec owner replaces staged =>
    dsimp only [ShareServer.step] at hstep
    split at hstep
    · rename_i t hres
      exact hsome hstep (h.reserve hres)
    · exact hsome hstep h
  | commitReservations registrations => exact hsome hstep (h.commitReservations registrations)
  | activate r =>
    obtain ⟨-, heq⟩ := Option.ite_none_right_eq_some.mp hstep
    exact hsome heq (h.calm (.activate s r))
  | completeReattach r =>
    obtain ⟨-, heq⟩ := Option.ite_none_right_eq_some.mp hstep
    exact hsome heq (h.completeReattach r)
  | deliver r seq checksum expected =>
    obtain ⟨-, heq⟩ := Option.ite_none_right_eq_some.mp hstep
    exact hsome heq (h.calm (.deliver s r seq checksum expected))
  | beginCloseNamespace n owner =>
    dsimp only [ShareServer.step] at hstep
    split at hstep
    · exact hsome hstep (h.calm (.beginCloseNamespace s n owner))
    · exact hsome hstep h
  | holdRegistration r =>
    obtain ⟨-, heq⟩ := Option.ite_none_right_eq_some.mp hstep
    exact hsome heq (h.calm (.holdRegistration s r))
  | holdNamespace n owner timeout =>
    dsimp only [ShareServer.step] at hstep
    split at hstep
    · exact hsome hstep (h.holdNamespace n owner timeout)
    · exact hsome hstep h
  | expireHolds n =>
    obtain ⟨-, heq⟩ := Option.ite_none_right_eq_some.mp hstep
    refine hsome heq ?_
    unfold ShareServer.expireHolds
    split
    · exact h
    · split
      · exact (h.foldl (fun _ r hs => hs.expire r) _).endHold n
      · exact h
  | closeNamespace n owner =>
    obtain ⟨-, heq⟩ := Option.ite_none_right_eq_some.mp hstep
    refine hsome heq ?_
    unfold ShareServer.closeNamespace
    split
    · exact h
    · split
      · exact h
      · split
        · exact h
        · refine of_eq (s := (_ : List Nat).foldl ShareServer.expire _) ?_ rfl
          exact (h.foldl (fun _ r hs => hs.expire r) _).foldl (fun _ r hs => hs.expire r) _
  | releaseNamespace n owner =>
    dsimp only [ShareServer.step] at hstep
    split at hstep
    · cases hstep
    · refine hsome hstep ?_
      unfold ShareServer.releaseNamespace
      split
      · exact h.of_eq rfl
      · exact h
  | unregister r closeNamespace =>
    dsimp only [ShareServer.step] at hstep
    split at hstep
    · exact hsome hstep (h.of_eq rfl)
    · exact hsome hstep (h.removeRegistration r)
  | removeNext task =>
    dsimp only [ShareServer.step] at hstep
    split at hstep
    · cases hstep
    · exact hsome hstep ((h.removeRegistration _).of_eq rfl)
    · refine hsome hstep (of_eq h ?_)
      unfold finishUnregister
      dsimp only
      split <;> rfl
  | put url marker =>
    dsimp only [ShareServer.step] at hstep
    split at hstep
    · cases hstep
    · split at hstep
      · exact hsome hstep (h.of_eq rfl)
      · rename_i r _
        exact hsome hstep ((h.calm (.enterPut s r)).of_eq rfl)
  | resumePut i =>
    dsimp only [ShareServer.step] at hstep
    split at hstep
    · split at hstep
      · cases hstep
      · exact hsome hstep (h.of_eq rfl)
      · rename_i r _
        exact hsome hstep ((h.calm (.enterPut s r)).of_eq rfl)
    · cases hstep
  | timeoutPut i =>
    dsimp only [ShareServer.step] at hstep
    split at hstep
    · exact hsome hstep (h.of_eq rfl)
    · cases hstep
  | installPut i value =>
    dsimp only [ShareServer.step] at hstep
    split at hstep
    · rename_i marker r _
      exact hsome hstep ((h.calm (.installPut s r marker value)).of_eq rfl)
    · cases hstep

end Rejoining

/-! ## Steps -/

theorem lookup_of_staysOpen {c : UpdateClient} (h : UpdateServer.staysOpen s c = true) :
    s.namespaces.lookup c.name ≠ none := by
  intro hnone
  unfold UpdateServer.staysOpen at h
  rw [hnone] at h
  cases h

theorem ne_of_staysOpen_erase {n : String} {c : UpdateClient} (h : UpdateServer.staysOpen s' c = true)
    (hspaces : s'.namespaces = s.namespaces.erase n) : c.name ≠ n := by
  rintro rfl
  refine lookup_of_staysOpen h ?_
  rw [hspaces, AList.lookup_erase]

/-- The end of a hold. -/
theorem listing_endHold {n : String} {c : UpdateClient}
    (hopen : UpdateServer.staysOpen (s.endHold n) c = true) :
    (s.endHold n).listing c.name = s.listing c.name := by
  have hadjusted : SameList s (s.modifyNamespace n fun ns =>
      { ns with holdUntil := ns.holdUntil.filter (s.now < ·) }) c.name :=
    .modifyNamespace fun _ => rfl
  unfold ShareServer.endHold at hopen ⊢
  dsimp only at hopen ⊢
  split at hopen
  · exact hadjusted.listing
  · rename_i ns hns
    split at hopen
    · rename_i hrelease
      rw [if_pos hrelease]
      exact (hadjusted.trans (.eraseNamespace (ne_of_staysOpen_erase hopen rfl))).listing
    · rename_i hrelease
      rw [if_neg hrelease]
      split
      · exact hadjusted.listing
      · refine SameList.listing (hadjusted.trans ?_)
        exact .modifyNamespace fun _ => rfl

theorem putRecord_self (s : ShareServer) {n : Nat}
    (hspace : (s.namespaces.lookup (s.place n).inNamespace).isSome = true) :
    (s.putRecord n).recordOf (s.place n).inNamespace (s.place n).spec.path = some n := by
  have hadjust : (s.putRecord n).recordOf (s.place n).inNamespace (s.place n).spec.path =
      (s.modifyNamespace (s.place n).inNamespace fun ns =>
        { ns with records := ns.records.insert (s.place n).spec.path n }).recordOf
          (s.place n).inNamespace (s.place n).spec.path := rfl
  rw [hadjust, recordOf_adjust, if_pos rfl]
  obtain ⟨ns, hns⟩ := Option.isSome_iff_exists.mp hspace
  rw [hns, Option.map_some, Option.bind_some]
  exact AList.lookup_insert _

/-- The list after a registration has been entered. -/
theorem listing_putRecord (s : ShareServer) {n : Nat}
    (hspace : (s.namespaces.lookup (s.place n).inNamespace).isSome = true) :
    (s.putRecord n).listing name key =
      if (s.place n).tableKey = some (name, key) then
        if s.serves n = true then some (s.version n) else none
      else s.listing name key := by
  split
  · rename_i hkey
    obtain ⟨hname, hpath⟩ := Prod.mk.inj (Option.some.inj hkey)
    have hrecord := putRecord_self s hspace
    rw [hname, hpath] at hrecord
    unfold ShareServer.listing
    rw [hrecord]
    by_cases hs : s.serves n = true
    · have hs' : (s.putRecord n).serves n = true := hs
      rw [if_pos hs, Option.filter_some_pos hs']
      rfl
    · have hs' : (s.putRecord n).serves n = false := Bool.eq_false_iff.mpr hs
      rw [if_neg hs, Option.filter_some_neg hs']
      rfl
  · rename_i hkey
    exact listing_congr (putRecord_recordOf s n hkey) fun r _ => ⟨rfl, rfl⟩

theorem SameList.takeOver (s : ShareServer) (n : String) (owner : Owner) :
    SameList s (s.takeOver n owner) name :=
  of_eq ((takeOver_same s n owner).tables name) (takeOver_registrations s n owner)

/-- What a watched list has in the place of a new registration. -/
theorem TakesPlace.listing_eq {watched : String → Bool} {n : String} {spec : ServedSpec} {route : Route}
    {replaced markers : List Nat} (h : s.TakesPlace watched n spec route replaced markers)
    (hwatched : watched n = true) :
    s.listing n spec.path = (s.heldRegistrationFor n spec route).map s.version := by
  unfold ShareServer.listing
  rw [h.listed hwatched]
  rfl

theorem SameList.allocate (hs : s.Sound) (hsane : s.Sane) (reg : ShareRegistration) :
    SameList s (s.allocate reg) name := by
  refine ⟨fun _ => rfl, fun key r hr => ?_, fun key r hr => ?_⟩
  · unfold ShareServer.serves
    rw [allocate_registrations, if_neg (hs.ne_count hsane hr)]
  · unfold ShareServer.version
    rw [allocate_registrations, if_neg (hs.ne_count hsane hr)]

theorem heldFor_path {n held : Nat} (h : s.heldFor n = some held) :
    (s.place held).spec.path = (s.place n).spec.path := by
  have hroute := (heldRegistrationFor_found h).2
  have hrouted := (s.place held).routed
  rw [hroute] at hrouted
  exact (routeFor_inj (s.place n).routed hrouted).2.1

/-- An unstaged registration takes the place of what is listed there. -/
theorem listing_placeUnstaged {n : Nat} (hs : s.Sound)
    (hspace : (s.namespaces.lookup (s.place n).inNamespace).isSome = true)
    (hclosed : (s.registrations n).closed = false) (hnew : s.serves n = false)
    (hfresh : ∀ key, s.recordOf name key ≠ some n) (hne : ∀ held ∈ s.heldFor n, n ≠ held)
    (hthere : (s.place n).inNamespace = name →
      s.listing name (s.place n).spec.path = (s.heldFor n).map s.version ∧
        ∀ held ∈ s.heldFor n, (s.registrations n).marker ≤ (s.registrations held).marker)
    (helsewhere : ∀ held ∈ s.heldFor n, (s.place held).inNamespace = name → s.serves held = true →
      (s.place n).inNamespace = name) : (s.placeUnstaged n).listing name = s.listing name := by
  rw [placeUnstaged_heldFor]
  funext key
  cases hheld : s.heldFor n with
  | none =>
    dsimp only
    have hsame := takeOver_same s (s.place n).inNamespace (s.place n).owner
    have hlist : SameList s (s.takeOver (s.place n).inNamespace (s.place n).owner) name :=
      .takeOver ..
    have hplace := (hsame.places n).1
    rw [listing_putRecord _ (by rw [hplace]; exact hsame.spaces _ hspace), hplace]
    split
    · rename_i hkey
      obtain ⟨hname, hpath⟩ := Prod.mk.inj (Option.some.inj hkey)
      have hlisted := (hthere hname).1
      rw [hheld, hpath] at hlisted
      have hserves : (s.takeOver (s.place n).inNamespace (s.place n).owner).serves n = false := by
        unfold ShareServer.serves
        rw [takeOver_registrations]
        exact hnew
      rw [hlisted, hserves]
      rfl
    · rw [hlist.listing]
  | some held =>
    have hnheld := hne held hheld
    have hlive := hs.found_live (heldRegistrationFor_found hheld).1
    have hadopt := adoptHeldRegistration_same s n held
    have hself : (s.adoptHeldRegistration n held).registrations n =
        { s.registrations n with
          checksum := (s.registrations held).checksum
          marker := max (s.registrations n).marker (s.registrations held).marker
          held := true
          reattaching := true
          reattachedFrom := some held } := by
      unfold adoptHeldRegistration
      rw [modify_registrations, if_pos rfl]
    have hother : (s.adoptHeldRegistration n held).registrations held = s.registrations held := by
      unfold adoptHeldRegistration
      rw [modify_registrations, if_neg (Ne.symm hnheld)]
    have hadopted : SameList s (s.adoptHeldRegistration n held) name :=
      .modify fun key hr => absurd hr (hfresh key)
    let removed := (s.adoptHeldRegistration n held).removeRegistration held
    have hkept : removed.registrations n = (s.adoptHeldRegistration n held).registrations n :=
      (removeRegistration_registrations _ held).1 n hnheld
    have hsame := takeOver_same removed (s.place n).inNamespace (s.place n).owner
    have hplace : (removed.takeOver (s.place n).inNamespace (s.place n).owner).place n =
        s.place n := by
      rw [(hsame.places n).1, removeRegistration_place, (hadopt.places n).1]
    have hregs := takeOver_registrations removed (s.place n).inNamespace (s.place n).owner
    dsimp only
    rw [listing_putRecord _ (by
      rw [hplace]
      refine hsame.spaces _ (removeRegistration_spaces ?_ (hadopt.spaces _ hspace))
      rw [hother]
      exact hlive.2), hplace]
    split
    · rename_i hkey
      obtain ⟨hname, hpath⟩ := Prod.mk.inj (Option.some.inj hkey)
      obtain ⟨hlisted, hmarker⟩ := hthere hname
      rw [hheld, hpath] at hlisted
      have hserves : (removed.takeOver (s.place n).inNamespace (s.place n).owner).serves n =
          true := by
        unfold ShareServer.serves
        rw [hregs, hkept, hself]
        simp [hclosed]
      have hversion : (removed.takeOver (s.place n).inNamespace (s.place n).owner).version n =
          s.version held := by
        unfold ShareServer.version
        rw [hregs, hkept, hself]
        dsimp only
        rw [Nat.max_eq_right (hmarker held hheld)]
      rw [hserves, if_pos rfl, hversion, hlisted, Option.map_some]
    · rename_i hkey
      have htaken : SameList removed
          (removed.takeOver (s.place n).inNamespace (s.place n).owner) name := .takeOver ..
      rw [htaken.listing, ← hadopted.listing]
      refine listing_removeRegistration fun hr => ?_
      rw [hadopted.records] at hr
      rw [hadopted.serves key held hr]
      by_contra hserves
      -- what is adopted is listed in the place of the new registration only
      obtain ⟨hname, hpath⟩ := hs.placed hr
      refine hkey ?_
      have hname' := helsewhere held hheld hname (by simpa using hserves)
      have hpath' := heldFor_path hheld
      unfold Reservation.tableKey
      rw [hname', ← hpath']
      exact congrArg (fun path => some (name, path)) hpath

theorem listing_reserve {watched : String → Bool} {tells : Bool} {spec : ServedSpec}
    {owner : Option Owner} {replaces : List Nat} {staged : Bool} {n : String} (hs : s.Sound)
    (hsane : s.Sane) (h : s.Silent watched tells (.reserve n spec owner replaces staged))
    (hres : s.reserve n spec owner replaces staged = .ok s') (hwatched : watched name = true) :
    s'.listing name = s.listing name := by
  obtain ⟨place, reg, hreg, hname, hspec, -, -, -, hs'⟩ := reserve_cases hres
  have hclaim := claimNamespace_same s n owner staged
  have hregs := claimNamespace_registrations s n owner staged
  have hspace := claimNamespace_isSome s n owner staged
  have hts := hclaim.indexed hs
  have htsane := hclaim.sane hsane
  have hfloors := (Quiet.claimNamespace s n owner staged).floors
  rw [← hclaim.count] at hs'
  have hclaimed : SameList s (s.claimNamespace n owner staged) name := .of_eq (hclaim.tables name) hregs
  have hlist := hclaimed.trans (.allocate hts htsane reg)
  by_cases hstaged : staged = true
  · rw [hs', if_pos hstaged]
    exact (hlist.trans (.of_eq (fun _ => rfl) rfl)).listing
  · rw [hs', if_neg hstaged, ← hlist.listing]
    have hroute : routeFor n spec = .ok place.route := by
      rw [← hname, ← hspec]
      exact place.routed
    have htakes := h.resolve_left hstaged
    rw [hroute] at htakes
    dsimp only at htakes
    have hstaged : staged = false := by simpa using hstaged
    have hself : ((s.claimNamespace n owner staged).allocate reg).registrations
        (s.claimNamespace n owner staged).registrationCount = reg := by
      rw [allocate_registrations, if_pos rfl]
    have hplace : ((s.claimNamespace n owner staged).allocate reg).place
        (s.claimNamespace n owner staged).registrationCount = place := by
      unfold ShareServer.place
      rw [hself, hreg]
    have hold : ∀ i, i ≠ (s.claimNamespace n owner staged).registrationCount →
        ((s.claimNamespace n owner staged).allocate reg).registrations i = s.registrations i := by
      intro i hi
      rw [allocate_registrations, if_neg hi, hregs]
    have hsound : ((s.claimNamespace n owner staged).allocate reg).Sound :=
      (hts.allocateLive htsane (by rw [hreg]; exact hstaged) (by rw [hreg])).isSound
    have hfound : ∀ i, s.recordOf n spec.path = some i ∨ s.current n spec = some i →
        i ≠ (s.claimNamespace n owner staged).registrationCount := by
      rintro i hi rfl
      rw [hclaim.count] at hi
      exact hsane.not_live (hs.found_live hi)
    have hheldFor : ((s.claimNamespace n owner staged).allocate reg).heldFor
        (s.claimNamespace n owner staged).registrationCount =
          s.heldRegistrationFor n spec place.route := by
      unfold heldFor
      rw [hplace, hname, hspec]
      refine heldRegistrationFor_congr (hclaim.tables n spec.path) (hclaim.current n spec)
        fun i hi => ?_
      unfold ShareServer.place
      rw [hold i (hfound i hi)]
      exact ⟨rfl, rfl⟩
    have hheldOld : ∀ held ∈ s.heldRegistrationFor n spec place.route,
        ((s.claimNamespace n owner staged).allocate reg).registrations held = s.registrations held :=
      fun held hheld => hold held (hfound held (heldRegistrationFor_found hheld).1)
    refine listing_placeUnstaged hsound ?_ ?_ ?_ (fun key hr => ?_) (fun held hheld => ?_)
      (fun hthere => ?_) fun held hheld hplaced hserves => ?_
    · rw [hplace, hname]
      exact hspace
    · rw [hself, hreg]
    · unfold ShareServer.serves
      rw [hself, hreg]
      rfl
    · exact Sound.ne_count hts htsane hr rfl
    · rw [hheldFor] at hheld
      exact Ne.symm (hfound held (heldRegistrationFor_found hheld).1)
    · rw [hplace, hname] at hthere
      rw [hheldFor, hplace, hspec, hlist.listing, hself]
      subst hthere
      refine ⟨?_, fun held hheld => ?_⟩
      · rw [htakes.listing_eq hwatched]
        cases hheld : s.heldRegistrationFor n spec place.route with
        | none => rfl
        | some held =>
          unfold ShareServer.version
          rw [Option.map_some, Option.map_some, hheldOld held hheld]
      · rw [hheldOld held hheld, hreg]
        dsimp only
        rw [hfloors]
        exact htakes.markers hwatched held hheld _ (List.mem_singleton_self _)
    · rw [hheldFor] at hheld
      unfold ShareServer.place ShareServer.serves at *
      rw [hheldOld held hheld] at hplaced hserves
      rw [hself, hreg]
      dsimp only
      rw [hname, ← hplaced]
      refine (htakes.elsewhere held ?_ ?_ hserves).symm
      · rw [hheld]
        exact List.mem_singleton_self _
      · rw [hplaced]
        exact hwatched

/-! ## Committing -/

theorem foldl_max_le {f : Nat → Nat} {b : Nat} (l : List Nat) : ∀ {m : Nat}, m ≤ b →
    (∀ j ∈ l, f j ≤ b) → l.foldl (fun m j => max m (f j)) m ≤ b := by
  induction l with
  | nil => exact fun hm _ => hm
  | cons i l ih =>
    intro m hm h
    rw [List.foldl_cons]
    have hi := h i (List.mem_cons_self ..)
    exact ih (by omega) fun j hj => h j (List.mem_cons_of_mem _ hj)

/-- A registration that is entered by a commit, when it has adopted and before it is recorded. -/
def prepared (s : ShareServer) (n : Nat) : ShareServer :=
  ((s.adoptIfHeld n).raiseMarker n (s.replacedBy n)).modify n fun reg => { reg with staged := false }

theorem prepared_registrations (s : ShareServer) {n i : Nat} (hi : i ≠ n) :
    (s.prepared n).registrations i = s.registrations i := by
  unfold prepared raiseMarker adoptIfHeld
  rw [modify_registrations, if_neg hi, modify_registrations, if_neg hi]
  dsimp only
  split
  · rfl
  · unfold adoptHeldRegistration
    rw [modify_registrations, if_neg hi]

theorem prepared_same (s : ShareServer) (n : Nat) :
    (∀ name key, (s.prepared n).recordOf name key = s.recordOf name key) ∧
      (s.prepared n).namespaces = s.namespaces ∧ (s.prepared n).place = s.place := by
  have hadopt : (s.adoptIfHeld n).namespaces = s.namespaces := by
    unfold adoptIfHeld
    dsimp only
    split <;> rfl
  have hspaces : (s.prepared n).namespaces = s.namespaces := hadopt
  refine ⟨fun name key => ?_, hspaces, ?_⟩
  · unfold recordOf
    rw [hspaces]
  · have hsame := (adoptIfHeld_same s n).trans (raiseMarker_same _ n (s.replacedBy n))
    funext i
    rw [← (hsame.places i).1]
    unfold prepared ShareServer.place
    rw [modify_registrations]
    split
    · rename_i hi
      rw [hi]
    · rfl

/-- What a registration shows that is entered by a commit. -/
theorem prepared_shown (s : ShareServer) {n : Nat} (hclosed : (s.registrations n).closed = false)
    (hold : ∀ old ∈ s.replacedBy n, old ≠ n) :
    (s.heldFor n = none → (s.prepared n).serves n = s.serves n) ∧
      ∀ held ∈ s.heldFor n, (s.prepared n).serves n = true ∧
        ((∀ m ∈ (s.registrations n).marker :: s.markerFloors (s.registrations n).route ::
            (s.replacedBy n).map fun old => (s.registrations old).marker,
          m ≤ (s.registrations held).marker) → (s.prepared n).version n = s.version held) := by
  have hunfold := adoptIfHeld_eq s n
  have hraised : (s.prepared n).registrations n =
      { (s.adoptIfHeld n).registrations n with
        marker := max ((s.replacedBy n).foldl
            (fun m old => max m ((s.adoptIfHeld n).registrations old).marker)
            ((s.adoptIfHeld n).registrations n).marker)
          ((s.adoptIfHeld n).markerFloors ((s.adoptIfHeld n).registrations n).route)
        staged := false } := by
    unfold prepared raiseMarker
    rw [modify_registrations, if_pos rfl, modify_registrations, if_pos rfl]
  refine ⟨fun hnone => ?_, fun held hheld => ?_⟩
  · rw [hunfold, hnone] at hraised
    unfold ShareServer.serves
    rw [hraised]
  · have hheld : s.heldFor n = some held := hheld
    rw [hunfold, hheld] at hraised
    have hself : (s.adoptHeldRegistration n held).registrations n =
        { s.registrations n with
          checksum := (s.registrations held).checksum
          marker := max (s.registrations n).marker (s.registrations held).marker
          held := true
          reattaching := true
          reattachedFrom := some held } := by
      unfold adoptHeldRegistration
      rw [modify_registrations, if_pos rfl]
    dsimp only at hraised
    rw [hself] at hraised
    dsimp only at hraised
    refine ⟨?_, fun hle => ?_⟩
    · unfold ShareServer.serves
      rw [hraised]
      simp [hclosed]
    · have hmarker : max ((s.replacedBy n).foldl
          (fun m old => max m ((s.adoptHeldRegistration n held).registrations old).marker)
          (max (s.registrations n).marker (s.registrations held).marker))
          (s.markerFloors (s.registrations n).route) = (s.registrations held).marker := by
        have hown := hle _ (List.mem_cons_self ..)
        have hfloor := hle _ (List.mem_cons_of_mem _ (List.mem_cons_self ..))
        have hgrows := (le_foldl_max (f := fun old =>
          ((s.adoptHeldRegistration n held).registrations old).marker) (s.replacedBy n)
            (max (s.registrations n).marker (s.registrations held).marker)).1
        have hbounded := foldl_max_le (f := fun old =>
          ((s.adoptHeldRegistration n held).registrations old).marker)
            (b := (s.registrations held).marker) (s.replacedBy n)
            (m := max (s.registrations n).marker (s.registrations held).marker) (by omega)
            fun old hmem => by
              unfold adoptHeldRegistration
              rw [modify_registrations, if_neg (hold old hmem)]
              exact hle _ (List.mem_cons_of_mem _ (List.mem_cons_of_mem _
                (List.mem_map.mpr ⟨old, hmem, rfl⟩)))
        omega
      unfold ShareServer.version
      rw [hraised]
      exact congrArg (·, (s.registrations held).checksum) hmarker

/-- What a registration replaces is live. -/
theorem Sound.replaced_live (hs : s.Sound) {n old : Nat} (h : old ∈ s.replacedBy n) : s.Live old := by
  refine @Indexed.found_live s _ _ hs (s.place n).inNamespace (s.place n).spec old ?_
  exact (List.mem_append.mp h).imp Option.mem_toList.mp Option.mem_toList.mp

theorem Sound.replaced_path (hs : s.Sound) {n old : Nat} (h : old ∈ s.replacedBy n) :
    (s.place old).spec.path = (s.place n).spec.path := by
  rcases List.mem_append.mp h with hrecord | hcurrent
  · exact (hs.placed (Option.mem_toList.mp hrecord)).2
  · exact (hs.current_sound (s.place n).routed (Option.mem_toList.mp hcurrent)).2.2.2

theorem Batch.unlive {registrations : List Nat} (h : s.Batch registrations) {n old : Nat}
    (hn : n ∈ registrations) (hold : s.Live old) : old ≠ n := by
  rintro rfl
  have hstaged := (h.sane.staged old (h.staged old hn).1).1
  rw [hold.2] at hstaged
  cases hstaged

theorem publish_entered (s : ShareServer) (n : Nat) :
    SameList ((s.prepared n).putRecord n) (s.publish n) name := by
  refine .trans (.modifyNamespace (n := ((s.prepared n).registrations n).inNamespace)
    (f := fun ns => { ns with stagedClaim := false }) fun _ => rfl) (.of_eq (fun _ => ?_) ?_)
  · rfl
  · rfl

/-- A registration of a batch is recorded. -/
theorem Batch.publish_self {n : Nat} {rest : List Nat} (h : s.Batch (n :: rest)) :
    (s.publish n).recordOf (s.place n).inNamespace (s.place n).spec.path = some n := by
  obtain ⟨-, hspace⟩ := h.staged n (List.mem_cons_self ..)
  obtain ⟨-, hspaces, hplaces⟩ := prepared_same s n
  have hplace : (s.prepared n).place n = s.place n := congrFun hplaces n
  have hself := putRecord_self (s.prepared n) (n := n) (by rw [hplace, hspaces]; exact hspace)
  rw [hplace] at hself
  rw [(publish_entered s n).records]
  exact hself

/-- A registration of a batch takes the place of what is listed there. -/
theorem Batch.listing_publish {n : Nat} {rest : List Nat} (h : s.Batch (n :: rest))
    (hserves : (s.place n).inNamespace = name → s.serves n = false)
    (hthere : (s.place n).inNamespace = name →
      s.listing name (s.place n).spec.path = (s.heldFor n).map s.version ∧
        ∀ held ∈ s.heldFor n, ∀ m ∈ (s.registrations n).marker ::
            s.markerFloors (s.registrations n).route ::
              (s.replacedBy n).map fun old => (s.registrations old).marker,
          m ≤ (s.registrations held).marker) : (s.publish n).listing name = s.listing name := by
  obtain ⟨hn, hspace⟩ := h.staged n (List.mem_cons_self ..)
  obtain ⟨-, hclosed⟩ := h.sane.staged n hn
  have hold : ∀ old ∈ s.replacedBy n, old ≠ n := fun old hmem =>
    h.unlive (List.mem_cons_self ..) (h.sound.replaced_live hmem)
  obtain ⟨hrecords, hspaces, hplaces⟩ := prepared_same s n
  obtain ⟨hunheld, hheld⟩ := prepared_shown s hclosed hold
  rw [(publish_entered s n).listing]
  funext key
  have hplace : (s.prepared n).place n = s.place n := congrFun hplaces n
  rw [listing_putRecord _ (by rw [hplace, hspaces]; exact hspace), hplace]
  split
  · rename_i hkey
    obtain ⟨hname, hpath⟩ := Prod.mk.inj (Option.some.inj hkey)
    obtain ⟨hlisted, hmarkers⟩ := hthere hname
    rw [hpath] at hlisted
    rw [hlisted]
    cases hcase : s.heldFor n with
    | none =>
      rw [hunheld hcase, hserves hname]
      rfl
    | some held =>
      obtain ⟨hshown, hversion⟩ := hheld held hcase
      rw [if_pos hshown, hversion (hmarkers held hcase), Option.map_some]
  · refine listing_congr (hrecords name key) fun r hr => ?_
    have hne : r ≠ n := h.unlive (List.mem_cons_self ..) (h.sound.table.sound (k := (name, key)) hr).1
    unfold ShareServer.serves ShareServer.version
    rw [prepared_registrations s hne]
    exact ⟨rfl, rfl⟩

/-- A registration of a batch may take the place of what is listed there. -/
def MayTakePlace (s : ShareServer) (name : String) (n : Nat) : Prop :=
  (s.place n).inNamespace = name → s.serves n = false ∧
    s.listing name (s.place n).spec.path = (s.heldFor n).map s.version ∧
      ∀ held ∈ s.heldFor n, ∀ m ∈ (s.registrations n).marker ::
          s.markerFloors (s.registrations n).route ::
            (s.replacedBy n).map fun old => (s.registrations old).marker,
        m ≤ (s.registrations held).marker

theorem Batch.mayTakePlace_publish {n j : Nat} {rest : List Nat} (h : s.Batch (n :: rest))
    (hj : j ∈ rest) (hlisting : (s.publish n).listing name = s.listing name)
    (hmay : s.MayTakePlace name j) : (s.publish n).MayTakePlace name j := by
  obtain ⟨reg, he, hregs, hfloors⟩ := publish_enters s n
  obtain ⟨hheldFor, hreplaced⟩ := h.found hj
  have hplace := he.place_eq hregs j
  have hlive : ∀ old, s.Live old → (s.publish n).registrations old = s.registrations old := by
    intro old hold
    rw [hregs, Function.update_of_ne (h.unlive (List.mem_cons_self ..) hold)]
  have hself : (s.publish n).registrations j = s.registrations j := by
    have hne : j ≠ n := by
      rintro rfl
      exact (List.nodup_cons.mp h.nodup).1 hj
    rw [hregs, Function.update_of_ne hne]
  intro hname
  rw [hplace] at hname
  obtain ⟨hserves, hlisted, hmarkers⟩ := hmay hname
  have hheldLive : ∀ held ∈ s.heldFor j, s.Live held := fun held hheld =>
    h.sound.found_live (heldRegistrationFor_found hheld).1
  refine ⟨?_, ?_, ?_⟩
  · unfold ShareServer.serves at hserves ⊢
    rw [hself]
    exact hserves
  · rw [hlisting, hplace, hheldFor, hlisted]
    cases hheld : s.heldFor j with
    | none => rfl
    | some held =>
      unfold ShareServer.version
      rw [Option.map_some, Option.map_some, hlive held (hheldLive held hheld)]
  · have hmap : ((s.replacedBy j).map fun old => ((s.publish n).registrations old).marker) =
        (s.replacedBy j).map fun old => (s.registrations old).marker :=
      List.map_congr_left fun old hold => by rw [hlive old (h.sound.replaced_live hold)]
    rw [hheldFor, hreplaced, hself, hfloors, hmap]
    intro held hheld
    rw [hlive held (hheldLive held hheld)]
    exact hmarkers held hheld

theorem Batch.listing_publishAll (registrations : List Nat) : ∀ {s : ShareServer},
    s.Batch registrations → (∀ n ∈ registrations, s.MayTakePlace name n) →
      (publishAll registrations s).1.listing name = s.listing name := by
  induction registrations with
  | nil => exact fun _ _ => rfl
  | cons n rest ih =>
    intro s h hmay
    have hn := hmay n (List.mem_cons_self ..)
    have hfirst := h.listing_publish (fun hname => (hn hname).1) fun hname => (hn hname).2
    have hunfold : (publishAll (n :: rest) s).1 = (publishAll rest (s.publish n)).1 := rfl
    rw [hunfold, ih h.publish fun j hj =>
      h.mayTakePlace_publish hj hfirst (hmay j (List.mem_cons_of_mem _ hj)), hfirst]

/-- The records after a batch has been entered. -/
theorem Batch.recordOf_publishAll (registrations : List Nat) : ∀ {s : ShareServer},
    s.Batch registrations →
      (∀ n ∈ registrations, (s.place n).tableKey = some (name, key) →
        (publishAll registrations s).1.recordOf name key = some n) ∧
      ((∀ n ∈ registrations, (s.place n).tableKey ≠ some (name, key)) →
        (publishAll registrations s).1.recordOf name key = s.recordOf name key) := by
  induction registrations with
  | nil => exact fun _ => ⟨fun n hn => (nomatch hn), fun _ => rfl⟩
  | cons n rest ih =>
    intro s h
    have hunfold : (publishAll (n :: rest) s).1 = (publishAll rest (s.publish n)).1 := rfl
    obtain ⟨hrest, hother⟩ := ih h.publish
    obtain ⟨reg, he, hregs, -⟩ := publish_enters s n
    have hplace := he.place_eq hregs
    rw [hunfold]
    refine ⟨fun m hm hkey => ?_, fun hnone => ?_⟩
    · rcases List.mem_cons.mp hm with rfl | hm
      · -- the others of the batch have other keys
        have hapart : ∀ j ∈ rest, ((s.publish m).place j).tableKey ≠ some (name, key) := by
          intro j hj hkey'
          rw [hplace] at hkey'
          exact ((List.pairwise_cons.mp h.apart).1 j hj).2 (hkey.trans hkey'.symm)
        rw [hother hapart]
        obtain ⟨hname, hpath⟩ := Prod.mk.inj (Option.some.inj hkey)
        have hself := h.publish_self
        rw [hname, hpath] at hself
        exact hself
      · refine hrest m hm ?_
        rw [hplace]
        exact hkey
    · rw [hother fun j hj => by
        rw [hplace]
        exact hnone j (List.mem_cons_of_mem _ hj)]
      exact publish_recordOf s n (hnone n (List.mem_cons_self ..))

theorem listing_commitReservations {watched : String → Bool} {tells : Bool} {registrations : List Nat}
    (hs : s.Sound) (hsane : s.Sane) (h : s.Silent watched tells (.commitReservations registrations))
    (hwatched : watched name = true) :
    (s.commitReservations registrations).2.listing name = s.listing name := by
  have hlist : SameList s (takeOverAll registrations s).2 name := .takeOverAll ..
  rcases commitReservations_cases s registrations with ⟨-, -, heq⟩ | ⟨hchecks, htake, heq⟩
  · rcases heq with heq | ⟨-, heq⟩
    · rw [heq]
    · rw [heq]
      exact hlist.listing
  · rw [heq, ← hlist.listing]
    have hsame := takeOverAll_same registrations s
    have hregs := takeOverAll_registrations registrations s
    have hbatch := takeOverAll_batch hs hsane hchecks htake
    have hfloors := (Quiet.takeOverAll registrations s).floors
    have hserves : (takeOverAll registrations s).2.serves = s.serves := by
      unfold ShareServer.serves
      rw [hregs]
    have hversion : (takeOverAll registrations s).2.version = s.version := by
      unfold ShareServer.version
      rw [hregs]
    have hheldFor : ∀ n, (takeOverAll registrations s).2.heldFor n = s.heldFor n := by
      intro n
      unfold heldFor
      rw [(hsame.places n).1]
      refine heldRegistrationFor_congr (hsame.tables ..) (hsame.current ..) fun i _ => ?_
      rw [hregs]
      exact ⟨rfl, (hsame.places i).1⟩
    have hpublished : (publishAll registrations (takeOverAll registrations s).2).1.listing name =
        (takeOverAll registrations s).2.listing name := by
      refine Batch.listing_publishAll registrations hbatch fun n hn hname => ?_
      obtain ⟨hfresh, htakes⟩ := h n hn
      rw [(hsame.places n).1] at hname ⊢
      have hwatched' : watched (s.place n).inNamespace = true := by
        rw [hname]
        exact hwatched
      rw [hserves, hversion, hheldFor, hsame.replacedBy, hregs, hfloors, hlist.listing, ← hname]
      exact ⟨hfresh hwatched', htakes.listing_eq hwatched', htakes.markers hwatched'⟩
    rw [← hpublished]
    funext key
    refine listing_foldl_removeRegistration _ fun j hj hrecord => ?_
    -- what is replaced is not listed any more
    obtain ⟨n, hn, hjn⟩ := publishAll_replaced registrations hbatch j hj
    have hlive := hbatch.sound.replaced_live hjn
    obtain ⟨hentered, hkept⟩ := @Batch.recordOf_publishAll name key registrations _ hbatch
    by_cases hkey : ∃ m ∈ registrations, (((takeOverAll registrations s).2.place m).tableKey =
        some (name, key))
    · obtain ⟨m, hm, hkey⟩ := hkey
      rw [hentered m hm hkey] at hrecord
      exact absurd (Option.some.inj hrecord).symm (hbatch.unlive hm hlive)
    · have hnone : ∀ m ∈ registrations,
          ((takeOverAll registrations s).2.place m).tableKey ≠ some (name, key) :=
        fun m hm hmkey => hkey ⟨m, hm, hmkey⟩
      rw [hkept hnone] at hrecord
      have hnot : j ∉ registrations := fun hmem => hbatch.unlive hmem hlive rfl
      have hsameServes : (publishAll registrations (takeOverAll registrations s).2).1.serves j =
          s.serves j := by
        unfold ShareServer.serves
        rw [publishAll_of_not_mem registrations hnot, hregs]
      rw [hsameServes]
      by_contra hshown
      obtain ⟨hname, hpath⟩ := hbatch.sound.placed hrecord
      rw [hregs] at hname hpath
      rw [hsame.replacedBy] at hjn
      have hspace := (h n hn).2.elsewhere j hjn (by rw [hname]; exact hwatched) (by simpa using hshown)
      refine hnone n hn ?_
      rw [(hsame.places n).1]
      unfold Reservation.tableKey
      rw [← hname, hspace, ← hpath, ← hs.replaced_path hjn]
      rfl

theorem Silent.listing {watched : String → Bool} {tells : Bool} {event : Event}
    (h : s.Silent watched tells event) (hs : s.Sound) (hsane : s.Sane) (hr : s.Rejoining)
    (hstarted : s.started = true) (hstep : s.step event = some s') {c : UpdateClient}
    (hwatched : watched c.name = true) (hopen : UpdateServer.staysOpen s' c = true)
    (htold : ∀ what, UpdateServer.announcement s tells event ≠ some (c.name, what)) :
    s'.listing c.name = s.listing c.name := by
  cases event with
  | start =>
    cases hstep
    rfl
  | tick duration =>
    cases hstep
    rfl
  | reserve n spec owner replaces staged =>
    dsimp only [ShareServer.step] at hstep
    split at hstep
    · rename_i t hres
      cases hstep
      exact listing_reserve hs hsane h hres hwatched
    · cases hstep
      rfl
  | commitReservations registrations =>
    cases hstep
    exact listing_commitReservations hs hsane h hwatched
  | activate r =>
    obtain ⟨-, heq⟩ := Option.ite_none_right_eq_some.mp hstep
    cases heq
    unfold ShareServer.activate
    split
    · rfl
    · rename_i hclosed
      have hclosed := Bool.eq_false_iff.mpr hclosed
      refine SameList.listing (.modify fun key hrecord => ?_)
      -- the first activation is told, and a registration that re-attaches is shown already
      have hserves : s.serves r = true := by
        have hfrom : (s.registrations r).reattachedFrom ≠ none := by
          intro hnone
          refine htold .shares ?_
          unfold UpdateServer.announcement
          dsimp only
          rw [hclosed, hnone, (hs.placed hrecord).1]
          rfl
        obtain ⟨-, hheld | hre⟩ := hr r hfrom hclosed
        · simp [ShareServer.serves, hheld, hclosed]
        · simp [ShareServer.serves, hre, hclosed]
      rw [hserves]
      refine ⟨?_, ?_⟩
      · simp [ShareServer.serves, modify_registrations, hclosed]
      · simp [ShareServer.version, modify_registrations]
  | completeReattach r =>
    obtain ⟨-, heq⟩ := Option.ite_none_right_eq_some.mp hstep
    cases heq
    unfold ShareServer.completeReattach
    dsimp only
    split
    · rfl
    · rename_i predecessor hfrom
      split
      · rfl
      · rename_i hclosed
        have hclosed := Bool.eq_false_iff.mpr hclosed
        refine SameList.listing (SameList.trans (.modify fun key hrecord => ?_) (.complete ..))
        have hplace := (hs.placed hrecord).1
        have hactive : (s.registrations r).active = true := by
          rcases h (by rw [hplace]; exact hwatched) with hnone | hactive | hflags | hclosed'
          · rw [hfrom] at hnone
            cases hnone
          · exact hactive
          · refine absurd ?_ (htold .shares)
            unfold UpdateServer.announcement
            dsimp only
            rw [hclosed, hfrom, hflags, hplace]
            rfl
          · rw [hclosed] at hclosed'
            cases hclosed'
        refine ⟨?_, ?_⟩
        · simp [ShareServer.serves, modify_registrations, hactive]
        · simp [ShareServer.version, modify_registrations]
  | deliver r seq checksum expected =>
    obtain ⟨-, heq⟩ := Option.ite_none_right_eq_some.mp hstep
    cases heq
    refine SameList.listing ?_
    unfold ShareServer.deliver
    dsimp only
    split
    · exact .of_eq (fun _ => rfl) rfl
    · rename_i hactive
      split
      · exact .of_eq (fun _ => rfl) rfl
      · rename_i hfingerprint
        refine .install fun key hrecord => ?_
        by_contra hchanged
        refine htold (.update r) ?_
        unfold UpdateServer.announcement ShareServer.deliver
        dsimp only
        rw [if_neg hactive, if_neg hfingerprint, if_pos ⟨rfl, hchanged⟩, (hs.placed hrecord).1]
  | beginCloseNamespace n owner =>
    dsimp only [ShareServer.step] at hstep
    rw [if_pos hstarted] at hstep
    cases hstep
    exact (SameList.beginCloseNamespace s n owner).listing
  | holdRegistration r =>
    obtain ⟨-, heq⟩ := Option.ite_none_right_eq_some.mp hstep
    cases heq
    unfold ShareServer.holdRegistration
    split
    · rfl
    · rename_i hclosed
      refine SameList.listing (.hold (fun _ => ⟨rfl, rfl, rfl, rfl⟩) fun key hrecord => ?_)
      obtain ⟨hplace, hpath⟩ := hs.placed hrecord
      rcases h (by rw [hplace]; exact hwatched) (by rw [hplace, hpath]; exact hrecord) with hc | hc
      · exact absurd hc hclosed
      · exact hc
  | holdNamespace n owner timeout =>
    dsimp only [ShareServer.step] at hstep
    rw [if_pos hstarted] at hstep
    cases hstep
    unfold ShareServer.holdNamespace
    split
    · rfl
    · rename_i ns hns
      split
      · rfl
      · rename_i howner
        have howner : ns.owner = owner := Decidable.not_not.mp howner
        refine SameList.listing (SameList.trans (.modifyNamespace ?_) (.foldl_holdUntil _ _ ?_))
        · exact fun _ => rfl
        · intro r hmem key hrecord
          have hmodified : SameList s (s.modifyNamespace n fun ns =>
              { ns with
                closing := false, ownerActive := false, holdUntil := some (s.now + timeout)
                holdTask := true }) c.name := .modifyNamespace fun _ => rfl
          rw [hmodified.records] at hrecord
          rw [hmodified.serves key r hrecord]
          have hvalue := (List.mem_filter.mp hmem).1
          obtain ⟨path, hpath⟩ := mem_values.mp hvalue
          have hrecord' : s.recordOf n path = some r := by
            unfold recordOf
            rw [hns]
            exact hpath
          have hname : c.name = n := (hs.placed hrecord).1.symm.trans (hs.placed hrecord').1
          exact h (hname ▸ hwatched) ns hns howner r hmem
  | expireHolds n =>
    obtain ⟨-, heq⟩ := Option.ite_none_right_eq_some.mp hstep
    cases heq
    unfold ShareServer.expireHolds at hopen ⊢
    split at hopen
    · rfl
    · rename_i ns hns
      split at hopen
      · rename_i htask
        rw [if_pos htask]
        refine (listing_endHold hopen).trans (funext fun key => ?_)
        refine listing_foldl_expire _ fun r hmem hrecord => ?_
        -- who is dropped in the namespace of the client is told
        obtain ⟨path, hpath⟩ := mem_values.mp (List.mem_filter.mp hmem).1
        have hrecord' : s.recordOf n path = some r := by
          unfold recordOf
          rw [hns]
          exact hpath
        have hname : c.name = n := (hs.placed hrecord).1.symm.trans (hs.placed hrecord').1
        refine absurd ?_ (htold .shares)
        unfold UpdateServer.announcement
        dsimp only
        rw [hns]
        dsimp only
        rw [if_pos, hname]
        rw [htask, Bool.true_and, Bool.not_eq_true', List.isEmpty_eq_false_iff]
        exact List.ne_nil_of_mem hmem
      · rename_i htask
        rw [if_neg htask]
  | closeNamespace n owner =>
    obtain ⟨-, heq⟩ := Option.ite_none_right_eq_some.mp hstep
    cases heq
    unfold ShareServer.closeNamespace at hopen ⊢
    split at hopen
    · rfl
    · rename_i ns hns
      split at hopen
      · rename_i howner
        rw [if_pos howner]
      · rename_i howner
        split at hopen
        · rename_i hactive
          rw [if_neg howner, if_pos hactive]
        · rename_i hactive
          rw [if_neg howner, if_neg hactive]
          have hne := ne_of_staysOpen_erase hopen rfl
          refine (SameList.eraseNamespace hne).listing.trans (funext fun key => ?_)
          have hplaces := foldl_place expire_place ns.values s
          refine (listing_foldl_expire _ fun r hmem hrecord => ?_).trans
            (listing_foldl_expire _ fun r hmem hrecord => ?_)
          · have hold := (shrinks_expire ns.values s).records c.name key r hrecord
            have hstaged := (List.mem_filter.mp hmem).2
            rw [Bool.and_eq_true, beq_iff_eq] at hstaged
            have hplace := congrArg (fun place => (place r).inNamespace) hplaces
            exact absurd ((hs.placed hold).1.symm.trans (hplace.symm.trans hstaged.1)) hne
          · obtain ⟨path, hpath⟩ := mem_values.mp hmem
            have hrecord' : s.recordOf n path = some r := by
              unfold recordOf
              rw [hns]
              exact hpath
            exact absurd ((hs.placed hrecord).1.symm.trans (hs.placed hrecord').1) hne
  | releaseNamespace n owner =>
    dsimp only [ShareServer.step] at hstep
    rw [if_pos hstarted] at hstep
    cases hstep
  | unregister r closeNamespace =>
    dsimp only [ShareServer.step] at hstep
    rw [if_pos hstarted] at hstep
    cases hstep
    rfl
  | removeNext task =>
    dsimp only [ShareServer.step] at hstep
    split at hstep
    · cases hstep
    · rename_i registration r rest closes htask
      cases hstep
      refine funext fun key => listing_removeRegistration fun hrecord => ?_
      obtain ⟨hplace, hpath⟩ := hs.placed hrecord
      have hcase := h _ htask r rfl (by rw [hplace]; exact hwatched)
        (by rw [hplace, hpath]; exact hrecord)
      rw [hplace] at hcase
      exact hcase.resolve_right (htold .shares)
    · rename_i registration closes htask
      cases hstep
      unfold finishUnregister at hopen ⊢
      dsimp only at hopen ⊢
      split at hopen
      · rename_i hcloses
        rw [if_pos hcloses]
        have hne := ne_of_staysOpen_erase (s := s) hopen rfl
        exact ((SameList.eraseNamespace hne).trans (.of_eq (fun _ => rfl) rfl)).listing
      · rename_i hcloses
        rw [if_neg hcloses]
        rfl
  | put url marker =>
    dsimp only [ShareServer.step] at hstep
    split at hstep
    · cases hstep
    · split at hstep
      · cases hstep
        rfl
      · rename_i r _
        cases hstep
        exact ((SameList.enterPut s r).trans (.of_eq (fun _ => rfl) rfl)).listing
  | resumePut i =>
    dsimp only [ShareServer.step] at hstep
    split at hstep
    · split at hstep
      · cases hstep
      · cases hstep
        rfl
      · rename_i r _
        cases hstep
        exact ((SameList.enterPut s r).trans (.of_eq (fun _ => rfl) rfl)).listing
    · cases hstep
  | timeoutPut i =>
    dsimp only [ShareServer.step] at hstep
    split at hstep
    · cases hstep
      rfl
    · cases hstep
  | installPut i value =>
    dsimp only [ShareServer.step] at hstep
    split at hstep
    · rename_i marker r hput
      cases hstep
      suffices hinstalled : SameList s (s.installPut r marker value).1 c.name from
        (hinstalled.trans (.of_eq (fun _ => rfl) rfl)).listing
      unfold ShareServer.installPut
      split
      · exact .of_eq (fun _ => rfl) rfl
      · rename_i checksum
        dsimp only
        split
        · exact .of_eq (fun _ => rfl) rfl
        · rename_i hactive
          split
          · exact .of_eq (fun _ => rfl) rfl
          · rename_i hmarker
            refine .install fun key hrecord => ?_
            by_contra hchanged
            refine htold (.update r) ?_
            unfold UpdateServer.announcement ShareServer.installPut
            dsimp only
            rw [hput]
            dsimp only
            rw [if_neg hactive, if_neg hmarker]
            dsimp only
            rw [if_pos hchanged, (hs.placed hrecord).1]
    · cases hstep

end ShareServer

end SeamlessWorkflow
