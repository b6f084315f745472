import SeamlessWorkflow.Proofs.ShareCommits

/-!
# The registry of the share server

Every live registration is the one that its URL is dispatched to, and the three tables hold the same
registrations. This fails when an unstaged reservation takes the share key of a held registration that
has another URL, and when a namespace is dropped in which a reservation is still staged.
-/

namespace SeamlessWorkflow

namespace ShareServer

variable {s s' : ShareServer} {spare lost : Nat → Prop}

/-! ## Dropping namespaces -/

/-- The registrations that are left in a namespace are lost. -/
def Vacant (s : ShareServer) (lost : Nat → Prop) (name : String) : Prop :=
  ∀ r, s.Live r → ¬ lost r → (s.place r).inNamespace ≠ name

theorem foldl_place {f : ShareServer → Nat → ShareServer} (hf : ∀ s r, (f s r).place = s.place)
    (l : List Nat) : ∀ s : ShareServer, (l.foldl f s).place = s.place := by
  induction l with
  | nil => exact fun s => rfl
  | cons r l ih => exact fun s => (ih _).trans (hf s r)

theorem expire_place (s : ShareServer) (r : Nat) : (s.expire r).place = s.place := by
  unfold expire
  rw [removeRegistration_place]
  funext j
  exact ((complete_same ..).places j).1

theorem Indexed.mem_values (h : s.Indexed spare lost) {name : String} {ns : ShareNamespace}
    (hns : s.namespaces.lookup name = some ns) {r : Nat} (hr : s.Live r) (hlost : ¬ lost r)
    (hname : (s.place r).inNamespace = name) : r ∈ ns.values := by
  have hf := h.table.complete hr hlost (k := (name, (s.place r).spec.path)) (by
    unfold Reservation.tableKey
    rw [hname])
  unfold recordOf at hf
  dsimp only at hf
  rw [hns, Option.bind_some] at hf
  exact ShareServer.mem_values.mpr ⟨_, hf⟩

/-- The end of a hold leaves the tables alone, or it drops a namespace without records. -/
theorem endHold_cases (s : ShareServer) (name : String) :
    SamePlaces s (s.endHold name) ∨
    ∃ t ns, SamePlaces s t ∧ t.namespaces.lookup name =
        some { ns with holdUntil := ns.holdUntil.filter (s.now < ·) } ∧
      s.namespaces.lookup name = some ns ∧ ns.ownerActive = false ∧
      ns.holdUntil.filter (s.now < ·) = none ∧ ns.values.isEmpty = true ∧
      s.endHold name = { t with namespaces := t.namespaces.erase name } := by
  have hsame : SamePlaces s (s.modifyNamespace name fun ns =>
      { ns with holdUntil := ns.holdUntil.filter (s.now < ·) }) := .modifyNamespace s name fun _ => rfl
  have hlookup : (s.modifyNamespace name fun ns =>
      { ns with holdUntil := ns.holdUntil.filter (s.now < ·) }).namespaces.lookup name =
      (s.namespaces.lookup name).map fun ns =>
        { ns with holdUntil := ns.holdUntil.filter (s.now < ·) } := by
    unfold modifyNamespace
    dsimp only
    rw [Index.lookup_adjust, if_pos rfl]
  unfold endHold
  dsimp only
  split
  · exact Or.inl hsame
  · rename_i ns' hns'
    rw [hlookup] at hns'
    obtain ⟨ns, hns, heq⟩ := Option.map_eq_some_iff.mp hns'
    split
    · rename_i hrelease
      rw [← heq, Bool.and_eq_true, Bool.and_eq_true] at hrelease
      refine Or.inr ⟨_, ns, hsame, ?_, hns, ?_, ?_, hrelease.2, rfl⟩
      · rw [hlookup, hns, Option.map_some]
      · simpa using hrelease.1.1
      · exact Option.isNone_iff_eq_none.mp hrelease.1.2
    · split
      · exact Or.inl hsame
      · exact Or.inl (hsame.trans (.modifyNamespace _ name fun _ => rfl))

theorem Indexed.endHold (h : s.Indexed spare lost) (hs : s.Sane) (name : String) :
    (s.endHold name).Indexed spare lost ∧ (s.endHold name).Sane := by
  rcases endHold_cases s name with hsame | ⟨t, ns, hsame, hns, -, -, -, hempty, heq⟩
  · exact ⟨hsame.indexed h, hsame.sane hs⟩
  · have hi := hsame.indexed h
    have hsane := hsame.sane hs
    rw [heq]
    exact ⟨hi.eraseNamespace (hi.lost_of_isEmpty hns hempty), ⟨hsane.unused, hsane.staged⟩⟩

theorem Indexed.expireHolds (h : s.Indexed spare lost) (hs : s.Sane) (name : String) :
    (s.expireHolds name).Indexed spare lost ∧ (s.expireHolds name).Sane := by
  unfold ShareServer.expireHolds
  split
  · exact ⟨h, hs⟩
  · split
    · exact (Indexed.foldl (fun s r h => h.expire r) _ _ h).endHold
        (Sane.foldl (fun s r h => h.expire r) _ _ hs) name
    · exact ⟨h, hs⟩

theorem Indexed.closeNamespace (h : s.Indexed spare lost) (hs : s.Sane) (name : String)
    (owner : Owner) :
    (s.closeNamespace name owner).Indexed spare lost ∧ (s.closeNamespace name owner).Sane := by
  unfold ShareServer.closeNamespace
  split
  · exact ⟨h, hs⟩
  · rename_i ns hns
    split
    · exact ⟨h, hs⟩
    · split
      · exact ⟨h, hs⟩
      · dsimp only
        have hlive := foldl_live expire_live ns.values s
        have hplace := foldl_place expire_place ns.values s
        have hi := Indexed.foldl (fun s r h => h.expire r) ns.values s h
        have hsane := Sane.foldl (fun s r h => h.expire r) ns.values s hs
        generalize ns.values.foldl ShareServer.expire s = t at hlive hplace hi hsane
        generalize (t.stagedReservations.filter fun r =>
          (t.registrations r).inNamespace == name && (t.registrations r).owner == owner) = staged
        have hi' := Indexed.foldl (fun s r h => h.expire r) staged t hi
        have hsane' := Sane.foldl (fun s r h => h.expire r) staged t hsane
        refine ⟨hi'.eraseNamespace fun r hr hlost hname => ?_, ⟨hsane'.unused, hsane'.staged⟩⟩
        -- whoever is left in the namespace was among its records
        rw [foldl_place expire_place, hplace] at hname
        have hr' := (hlive r).mp ((foldl_live expire_live staged t r).mp hr).1
        exact hr'.2 (h.mem_values hns hr'.1 hlost hname)

theorem Indexed.releaseNamespace (h : s.Indexed spare lost) (hs : s.Sane) {name : String}
    {owner : Owner} (hvacant : s.Vacant lost name) :
    (s.releaseNamespace name owner).Indexed spare lost ∧ (s.releaseNamespace name owner).Sane := by
  unfold ShareServer.releaseNamespace
  split
  · exact ⟨h.eraseNamespace hvacant, ⟨hs.unused, hs.staged⟩⟩
  · exact ⟨h, hs⟩

theorem Indexed.finishUnregister (h : s.Indexed spare lost) (hs : s.Sane) {task : Unregistering}
    (hvacant : s.Vacant lost (s.place task.registration).inNamespace) :
    (s.finishUnregister task).Indexed spare lost ∧ (s.finishUnregister task).Sane := by
  unfold ShareServer.finishUnregister
  dsimp only
  split
  · exact ⟨h.eraseNamespace hvacant, ⟨hs.unused, hs.staged⟩⟩
  · exact ⟨h, hs⟩

/-! ## Steps -/

/-- Does a reservation pass the checks? -/
def Admits (s : ShareServer) (name : String) (spec : ServedSpec) (owner : Option Owner)
    (replaces : List Nat) : Prop :=
  ∃ route, routeFor name spec = .ok route ∧
    firstError (s.reservationChecks name spec route owner replaces []) = .ok ()

/-- The namespace that an event drops without a look at what is in it. -/
def dropsBlindly (s : ShareServer) : Event → Option String
  | .releaseNamespace name owner =>
    if (s.namespaces.lookup name).any fun ns => ns.owner == owner then some name else none
  | .removeNext task =>
    match s.unregistering[task]? with
    | some { registration, rest := [], closes } =>
      let reg := s.registrations registration
      if (s.namespaces.lookup reg.inNamespace).any fun ns => closes == some ns.id &&
          ns.owner == reg.owner then some reg.inNamespace
      else none
    | _ => none
  | _ => none

/-- An event keeps the tables: an unstaged reservation yields to nothing but the held registration of
its own URL, and a namespace that is dropped is vacant. -/
def KeepsTables (s : ShareServer) (lost : Nat → Prop) (event : Event) : Prop :=
  (match event with
    | .reserve name spec owner replaces false =>
      s.Admits name spec owner replaces → s.Yields lost name spec
    | _ => True) ∧
  ∀ name, s.dropsBlindly event = some name → s.Vacant lost name

theorem admits_of_reserve {name : String} {spec : ServedSpec} {owner : Option Owner}
    {replaces : List Nat} {staged : Bool}
    (hres : s.reserve name spec owner replaces staged = .ok s') :
    s.Admits name spec owner replaces := by
  unfold ShareServer.reserve at hres
  split at hres
  · cases hres
  · split at hres
    · cases hres
    · split at hres
      · cases hres
      · rename_i route hroute
        split at hres
        · cases hres
        · rename_i hchecks
          exact ⟨route, hroute, hchecks⟩

theorem Indexed.removeNext (h : s.Indexed spare lost) (hs : s.Sane) {task : Nat}
    (hvacant : ∀ name, s.dropsBlindly (.removeNext task) = some name → s.Vacant lost name)
    (hstep : step s (.removeNext task) = some s') : s'.Indexed spare lost ∧ s'.Sane := by
  dsimp only [step] at hstep
  split at hstep
  · cases hstep
  · rename_i registration r rest closes htask
    obtain rfl := Option.some.inj hstep
    have hi := h.removeRegistration r
    have hsane := hs.removeRegistration r
    exact ⟨⟨hi.top, hi.record, hi.table⟩, ⟨hsane.unused, hsane.staged⟩⟩
  · rename_i registration closes htask
    obtain rfl := Option.some.inj hstep
    have hend : (s.finishUnregister { registration, rest := [], closes }).Indexed spare lost ∧
        (s.finishUnregister { registration, rest := [], closes }).Sane := by
      cases hany : (s.namespaces.lookup (s.registrations registration).inNamespace).any fun ns =>
          closes == some ns.id && ns.owner == (s.registrations registration).owner with
      | true =>
        refine h.finishUnregister hs (hvacant _ ?_)
        dsimp only [dropsBlindly]
        rw [htask]
        dsimp only
        rw [if_pos hany]
        rfl
      | false =>
        unfold ShareServer.finishUnregister
        dsimp only
        rw [if_neg (by simp [hany])]
        exact ⟨h, hs⟩
    exact ⟨⟨hend.1.top, hend.1.record, hend.1.table⟩, ⟨hend.2.unused, hend.2.staged⟩⟩

/-- May an event change the tables? -/
def Event.touchesTables : Event → Bool
  | .reserve .. | .commitReservations .. | .expireHolds .. | .closeNamespace .. |
    .releaseNamespace .. | .unregister .. | .removeNext .. => true
  | _ => false

theorem step_same {event : Event} (htouches : event.touchesTables = false)
    (hstep : step s event = some s') : SamePlaces s s' := by
  have hsame : ∀ {t : ShareServer}, some t = some s' → SamePlaces s t → SamePlaces s s' :=
    fun heq ht => Option.some.inj heq ▸ ht
  cases event with
  | start => exact hsame hstep (.of_eq rfl rfl rfl rfl rfl rfl)
  | tick duration => exact hsame hstep (.of_eq rfl rfl rfl rfl rfl rfl)
  | activate r =>
    dsimp only [step] at hstep
    split at hstep
    · exact hsame hstep (activate_same s r)
    · cases hstep
  | completeReattach r =>
    dsimp only [step] at hstep
    split at hstep
    · exact hsame hstep (completeReattach_same s r)
    · cases hstep
  | deliver r seq checksum expected =>
    dsimp only [step] at hstep
    split at hstep
    · exact hsame hstep (deliver_same s r seq checksum expected)
    · cases hstep
  | beginCloseNamespace name owner =>
    dsimp only [step] at hstep
    split at hstep
    · exact hsame hstep (beginCloseNamespace_same s name owner)
    · exact hsame hstep (.refl s)
  | holdRegistration r =>
    dsimp only [step] at hstep
    split at hstep
    · exact hsame hstep (holdRegistration_same s r)
    · cases hstep
  | holdNamespace name owner timeout =>
    dsimp only [step] at hstep
    split at hstep
    · exact hsame hstep (holdNamespace_same s name owner timeout)
    · exact hsame hstep (.refl s)
  | put url marker =>
    dsimp only [step] at hstep
    split at hstep
    · cases hstep
    · split at hstep
      · exact hsame hstep (.of_eq rfl rfl rfl rfl rfl rfl)
      · rename_i r _
        exact hsame hstep ((enterPut_same s r).trans (.of_eq rfl rfl rfl rfl rfl rfl))
  | resumePut i =>
    dsimp only [step] at hstep
    split at hstep
    · split at hstep
      · cases hstep
      · exact hsame hstep (setPut_same ..)
      · rename_i r _
        exact hsame hstep ((enterPut_same s r).trans (setPut_same ..))
    · cases hstep
  | timeoutPut i =>
    dsimp only [step] at hstep
    split at hstep
    · exact hsame hstep (setPut_same ..)
    · cases hstep
  | installPut i value =>
    dsimp only [step] at hstep
    split at hstep
    · rename_i marker r _
      exact hsame hstep ((installPut_same s r marker value).trans (setPut_same ..))
    · cases hstep
  | _ => cases htouches

theorem Indexed.step (h : s.Indexed (fun _ => False) lost) (hs : s.Sane) {event : Event}
    (hkeeps : s.KeepsTables lost event) (hstep : step s event = some s') :
    s'.Indexed (fun _ => False) lost ∧ s'.Sane := by
  by_cases htouches : event.touchesTables = true
  swap
  · have hsame := step_same (Bool.eq_false_iff.mpr htouches) hstep
    exact ⟨hsame.indexed h, hsame.sane hs⟩
  cases event with
  | reserve name spec owner replaces staged =>
    dsimp only [ShareServer.step] at hstep
    split at hstep
    · rename_i t hres
      obtain rfl := Option.some.inj hstep
      refine h.reserve hs (fun hstaged => ?_) hres
      subst hstaged
      exact hkeeps.1 (admits_of_reserve hres)
    · obtain rfl := Option.some.inj hstep
      exact ⟨h, hs⟩
  | commitReservations registrations =>
    obtain rfl := Option.some.inj hstep
    exact h.commitReservations hs registrations
  | expireHolds name =>
    dsimp only [ShareServer.step] at hstep
    split at hstep
    · obtain rfl := Option.some.inj hstep
      exact h.expireHolds hs name
    · cases hstep
  | closeNamespace name owner =>
    dsimp only [ShareServer.step] at hstep
    split at hstep
    · obtain rfl := Option.some.inj hstep
      exact h.closeNamespace hs name owner
    · cases hstep
  | releaseNamespace name owner =>
    dsimp only [ShareServer.step] at hstep
    split at hstep
    · cases hstep
    · obtain rfl := Option.some.inj hstep
      cases hany : (s.namespaces.lookup name).any fun ns => ns.owner == owner with
      | true => exact h.releaseNamespace hs (hkeeps.2 name (by
          dsimp only [dropsBlindly]
          rw [if_pos hany]))
      | false =>
        unfold ShareServer.releaseNamespace
        rw [if_neg (by simp [hany])]
        exact ⟨h, hs⟩
  | unregister r closeNamespace =>
    dsimp only [ShareServer.step] at hstep
    split at hstep
    · obtain rfl := Option.some.inj hstep
      have hsame := unregister_same s r closeNamespace
      exact ⟨hsame.indexed h, hsame.sane hs⟩
    · obtain rfl := Option.some.inj hstep
      exact ⟨h.removeRegistration r, hs.removeRegistration r⟩
  | removeNext task => exact h.removeNext hs hkeeps.2 hstep
  | _ => cases htouches

/-! ## Staged reservations -/

/-- The namespace of a staged reservation is there. -/
def Claimed (s : ShareServer) : Prop :=
  ∀ r ∈ s.stagedReservations, (s.namespaces.lookup (s.place r).inNamespace).isSome = true

/-- No reservation is staged in a namespace. -/
def Unstaged (s : ShareServer) (name : String) : Prop :=
  ∀ r ∈ s.stagedReservations, (s.place r).inNamespace ≠ name

namespace Claimed

theorem same (h : s.Claimed) (hsame : SamePlaces s s') : s'.Claimed := by
  intro r hr
  rw [(hsame.places r).1]
  exact hsame.spaces _ (h r (hsame.staged ▸ hr))

theorem eraseNamespace (h : s.Claimed) {name : String} (hname : s.Unstaged name) :
    Claimed { s with namespaces := s.namespaces.erase name } := by
  intro r hr
  show ((s.namespaces.erase name).lookup (s.place r).inNamespace).isSome = true
  rw [AList.lookup_erase_ne (hname r hr)]
  exact h r hr

theorem removeRecords (h : s.Claimed) (r : Nat) : (s.removeRecords r).Claimed := by
  intro j hj
  rw [removeRecords_place]
  show ((Index.adjust s.namespaces _ _).lookup _).isSome = true
  have hold := h j (List.mem_filter.mp hj).1
  rw [Index.lookup_adjust]
  split
  · rwa [Option.isSome_map]
  · exact hold

/-- The claim of a staged reservation goes with the last one. -/
theorem removeRegistration (h : s.Claimed) (r : Nat) : (s.removeRegistration r).Claimed := by
  unfold ShareServer.removeRegistration
  dsimp only
  split
  · exact h
  · split
    · rename_i hover
      refine (h.removeRecords r).eraseNamespace fun j hj hname => ?_
      rw [Bool.and_eq_true] at hover
      have hnone := hover.2
      unfold claimIsOver at hnone
      rw [Bool.and_eq_true, Bool.not_eq_true', List.any_eq_false] at hnone
      exact hnone.2 j hj (beq_iff_eq.mpr hname)
    · exact h.removeRecords r

theorem expire (h : s.Claimed) (r : Nat) : (s.expire r).Claimed :=
  (h.same (complete_same ..)).removeRegistration r

theorem foldl {f : ShareServer → Nat → ShareServer} (hf : ∀ s r, s.Claimed → (f s r).Claimed)
    (l : List Nat) : ∀ s : ShareServer, s.Claimed → (l.foldl f s).Claimed := by
  induction l with
  | nil => exact fun s h => h
  | cons r l ih => exact fun s h => ih _ (hf s r h)

theorem placeUnstaged (h : s.Claimed) (r : Nat) : (s.placeUnstaged r).Claimed := by
  have hput : ∀ t : ShareServer, t.Claimed → ∀ (name : String) (owner : Owner),
      ((t.takeOver name owner).putRecord r).Claimed := by
    intro t ht name owner j hj
    have htake := ht.same (takeOver_same t name owner) j hj
    show ((Index.adjust (t.takeOver name owner).namespaces _ _).lookup _).isSome = true
    rw [Index.lookup_adjust]
    split
    · rwa [Option.isSome_map]
    · exact htake
  unfold ShareServer.placeUnstaged
  dsimp only
  split
  · exact hput _ h _ _
  · exact hput _ ((h.same (adoptHeldRegistration_same ..)).removeRegistration _) _ _

theorem allocate (h : s.Claimed) (hs : s.Sane) (reg : ShareRegistration) :
    (s.allocate reg).Claimed := by
  intro r hr
  have hne : r ≠ s.registrationCount := by
    rintro rfl
    have hclosed := (hs.staged _ hr).2
    rw [hs.unused _ (Nat.le_refl _)] at hclosed
    cases hclosed
  have hplace : (s.allocate reg).place r = s.place r := by
    unfold place
    rw [allocate_registrations, if_neg hne]
  rw [hplace]
  exact h r hr

theorem reserve (h : s.Claimed) (hs : s.Sane) {name : String} {spec : ServedSpec}
    {owner : Option Owner} {replaces : List Nat} {staged : Bool}
    (hres : s.reserve name spec owner replaces staged = .ok s') : s'.Claimed := by
  obtain ⟨place, reg, hreg, hname, -, -, -, -, hs'⟩ := reserve_cases hres
  have hclaim := claimNamespace_same s name owner staged
  have halloc := (h.same hclaim).allocate (hclaim.sane hs) reg
  cases hstaged : staged with
  | true =>
    rw [hstaged] at hs' hreg hclaim halloc
    rw [hs', if_pos rfl]
    intro r hr
    rcases List.mem_append.mp hr with hr | hr
    · exact halloc r (hclaim.staged.symm ▸ hr)
    · have hplace : ((s.claimNamespace name owner true).allocate reg).place r = place := by
        unfold ShareServer.place
        rw [allocate_registrations, if_pos ((List.mem_singleton.mp hr).trans hclaim.count.symm), hreg]
      show (AList.lookup (((s.claimNamespace name owner true).allocate reg).place r).inNamespace
        (s.claimNamespace name owner true).namespaces).isSome = true
      rw [hplace, hname]
      exact claimNamespace_isSome ..
  | false =>
    rw [hstaged] at hs' halloc
    rw [hs', if_neg (by simp)]
    exact halloc.placeUnstaged _

theorem unstage (h : s.Claimed) (r : Nat) : (s.unstage r).Claimed := by
  intro j hj
  have hmem := List.mem_filter.mp hj
  have hplace : (s.unstage r).place j = s.place j := by
    show ((s.modify r fun reg => { reg with staged := false }).registrations j).toReservation = _
    rw [modify_registrations]
    split
    · rename_i hjr
      rw [hjr]
      rfl
    · rfl
  rw [hplace]
  exact unstage_spaces s r (h j hmem.1)

theorem publishBatch (registrations : List Nat) : ∀ {s : ShareServer}, s.Claimed →
    (publishAll registrations s).1.Claimed := by
  induction registrations with
  | nil => exact fun h => h
  | cons r registrations ih =>
    intro s h
    obtain ⟨t, hsame, ht⟩ := publish_eq s r
    unfold publishAll
    dsimp only
    rw [ht]
    exact ih ((h.same hsame).unstage r)

theorem commitReservations (h : s.Claimed) (registrations : List Nat) :
    (s.commitReservations registrations).2.Claimed := by
  rcases commitReservations_cases s registrations with ⟨-, hsame, -⟩ | ⟨-, -, heq⟩
  · exact h.same hsame
  · rw [heq]
    exact foldl (fun s r h => h.removeRegistration r) _ _
      (publishBatch registrations (h.same (takeOverAll_same registrations s)))

end Claimed

end ShareServer

end SeamlessWorkflow
