import SeamlessWorkflow.Proofs.ShareRegistry

/-!
# Who owns a namespace of the share server

A namespace changes hands only while it is held after its owner has gone, and what is published in it
is its owner's.
-/

namespace SeamlessWorkflow

namespace ShareServer

variable {s s' s'' : ShareServer}

/-- The namespaces that are left are as before, but for their records. -/
def SameEntries (s s' : ShareServer) : Prop :=
  s'.now = s.now ∧ ∀ name ns', s'.namespaces.lookup name = some ns' →
    ∃ ns, s.namespaces.lookup name = some ns ∧ ns' = { ns with records := ns'.records }

namespace SameEntries

theorem of_eq (hnow : s'.now = s.now) (hspaces : s'.namespaces = s.namespaces) : SameEntries s s' :=
  ⟨hnow, fun _ ns' hns => ⟨ns', hspaces ▸ hns, rfl⟩⟩

theorem trans (h : SameEntries s s') (h' : SameEntries s' s'') : SameEntries s s'' := by
  refine ⟨h'.1.trans h.1, fun name ns'' hns'' => ?_⟩
  obtain ⟨ns', hns', heq'⟩ := h'.2 name ns'' hns''
  obtain ⟨ns, hns, heq⟩ := h.2 name ns' hns'
  refine ⟨ns, hns, ?_⟩
  rw [heq', heq]

theorem foldl {f : ShareServer → Nat → ShareServer} (hf : ∀ s r, SameEntries s (f s r)) :
    ∀ (l : List Nat) (s : ShareServer), SameEntries s (l.foldl f s)
  | [], _ => of_eq rfl rfl
  | r :: l, s => (hf s r).trans (foldl hf l (f s r))

theorem eraseNamespace (s : ShareServer) (name : String) :
    SameEntries s { s with namespaces := s.namespaces.erase name } := by
  refine ⟨rfl, fun n ns' hns => ?_⟩
  have hns : (s.namespaces.erase name).lookup n = some ns' := hns
  by_cases hn : n = name
  · rw [hn, AList.lookup_erase] at hns
    cases hns
  · rw [AList.lookup_erase_ne hn] at hns
    exact ⟨ns', hns, rfl⟩

theorem removeRecords (s : ShareServer) (r : Nat) : SameEntries s (s.removeRecords r) := by
  refine ⟨rfl, fun n ns' hns => ?_⟩
  have hns : (Index.adjust s.namespaces (s.registrations r).inNamespace fun ns =>
    { ns with records := Index.discard ns.records (s.registrations r).spec.path r }).lookup n =
      some ns' := hns
  rw [Index.lookup_adjust] at hns
  split at hns
  · obtain ⟨ns, hlookup, rfl⟩ := Option.map_eq_some_iff.mp hns
    exact ⟨ns, hlookup, rfl⟩
  · exact ⟨ns', hns, rfl⟩

theorem removeRegistration (s : ShareServer) (r : Nat) : SameEntries s (s.removeRegistration r) := by
  unfold ShareServer.removeRegistration
  dsimp only
  split
  · exact of_eq rfl rfl
  · split
    · exact (removeRecords s r).trans (eraseNamespace ..)
    · exact removeRecords s r

theorem complete (s : ShareServer) (future result : Option Nat) :
    SameEntries s (s.complete future result) := by
  unfold ShareServer.complete
  split
  · exact of_eq rfl rfl
  · split
    · exact of_eq rfl rfl
    · exact of_eq rfl rfl

theorem expire (s : ShareServer) (r : Nat) : SameEntries s (s.expire r) :=
  (complete ..).trans (removeRegistration ..)

end SameEntries

/-! ## The end of a hold -/

/-- A round of `_expire_holds` drops the namespace: its owner has gone, the hold is over, and so is
that of each of its records. -/
def HoldIsOver (s : ShareServer) (name : String) : Prop :=
  ∃ ns, s.namespaces.lookup name = some ns ∧ ns.holdTask = true ∧ ns.ownerActive = false ∧
    (∀ deadline, ns.holdUntil = some deadline → deadline ≤ s.now) ∧
    ∀ r ∈ ns.values, (s.registrations r).held = true ∧
      ∃ deadline, (s.registrations r).holdUntil = some deadline ∧ deadline ≤ s.now

theorem removeRegistration_staged (hs : s.Sane) {r j : Nat}
    (h : j ∈ (s.removeRegistration r).stagedReservations) : j ∈ s.stagedReservations ∧ j ≠ r := by
  have hfilter : ∀ {i}, i ∈ (s.removeRecords r).stagedReservations →
      i ∈ s.stagedReservations ∧ i ≠ r := by
    intro i hi
    have := List.mem_filter.mp hi
    exact ⟨this.1, by simpa using this.2⟩
  unfold removeRegistration at h
  dsimp only at h
  split at h
  · rename_i hclosed
    refine ⟨h, ?_⟩
    rintro rfl
    rw [(hs.staged j h).2] at hclosed
    cases hclosed
  · split at h
    · exact hfilter h
    · exact hfilter h

theorem expire_staged (hs : s.Sane) {r j : Nat} (h : j ∈ (s.expire r).stagedReservations) :
    j ∈ s.stagedReservations ∧ j ≠ r := by
  have hold := removeRegistration_staged ((complete_same ..).sane hs) h
  rwa [(complete_same ..).staged] at hold

theorem foldl_expire_staged (l : List Nat) : ∀ {s : ShareServer}, s.Sane → ∀ {j : Nat},
    j ∈ (l.foldl expire s).stagedReservations → j ∈ s.stagedReservations ∧ j ∉ l := by
  induction l with
  | nil => exact fun _ _ h => ⟨h, by simp⟩
  | cons r l ih =>
    intro s hs j h
    obtain ⟨hmem, hnot⟩ := ih (hs.expire r) h
    obtain ⟨hmem, hne⟩ := expire_staged hs hmem
    refine ⟨hmem, fun hcons => ?_⟩
    exact (List.mem_cons.mp hcons).elim hne hnot

/-- A record stays unless its own registration is removed. -/
theorem removeRegistration_recordOf {name : String} {path : List String} {j n : Nat}
    (hj : s.recordOf name path = some j) (hne : j ≠ n) :
    (s.removeRegistration n).recordOf name path = some j := by
  have hkept : (s.removeRecords n).recordOf name path = some j := by
    rw [removeRecords_recordOf, if_neg]
    · exact hj
    · rintro ⟨-, hn⟩
      rw [hj] at hn
      exact hne (Option.some.inj hn)
  unfold ShareServer.removeRegistration
  dsimp only
  split
  · exact hj
  · split
    · rename_i hover
      rw [Bool.and_eq_true] at hover
      have hclaim := hover.2
      unfold claimIsOver at hclaim
      rw [Bool.and_eq_true, Option.any_eq_true] at hclaim
      obtain ⟨ns, hns, hempty⟩ := hclaim.1
      rw [Bool.and_eq_true] at hempty
      -- the namespace of the record is not empty
      have hname : name ≠ (s.registrations n).inNamespace := by
        rintro rfl
        unfold recordOf at hkept
        rw [hns, Option.bind_some] at hkept
        have hmem := mem_values.mpr ⟨path, hkept⟩
        rw [List.isEmpty_iff.mp hempty.2] at hmem
        cases hmem
      unfold recordOf at hkept ⊢
      dsimp only
      rw [AList.lookup_erase_ne hname]
      exact hkept
    · exact hkept

theorem foldl_expire_recordOf {name : String} {path : List String} {j : Nat} (l : List Nat) :
    ∀ {s : ShareServer}, s.recordOf name path = some j → j ∉ l →
      (l.foldl expire s).recordOf name path = some j := by
  induction l with
  | nil => exact fun hj _ => hj
  | cons n l ih =>
    intro s hj hnot
    obtain ⟨hne, hnot⟩ := not_or.mp fun hor => hnot (List.mem_cons.mpr hor)
    refine ih (removeRegistration_recordOf ?_ hne) hnot
    rw [(complete_same ..).tables]
    exact hj

/-- When the last record of a namespace goes with its hold, the hold of all of them was over. -/
theorem holdIsOver_of_release {name : String} {ns ns' : ShareNamespace}
    (hns : s.namespaces.lookup name = some ns) (htask : ns.holdTask = true)
    (hns' : ((s.expired ns).foldl expire s).namespaces.lookup name = some ns')
    (hactive : ns'.ownerActive = false)
    (hhold : ns'.holdUntil.filter (((s.expired ns).foldl expire s).now < ·) = none)
    (hempty : ns'.values.isEmpty = true) : s.HoldIsOver name := by
  have hentries := SameEntries.foldl SameEntries.expire (s.expired ns) s
  obtain ⟨ns₀, hns₀, heq⟩ := hentries.2 name ns' hns'
  obtain rfl : ns₀ = ns := Option.some.inj (hns₀.symm.trans hns)
  refine ⟨ns₀, hns, htask, ?_, fun deadline hd => ?_, fun r hr => ?_⟩
  · rw [heq] at hactive
    exact hactive
  · rw [heq, hentries.1] at hhold
    dsimp only at hhold
    rw [hd, Option.filter_some] at hhold
    split at hhold
    · cases hhold
    · rename_i hlt
      have : ¬ s.now < deadline := by simpa using hlt
      omega
  · by_contra hnot
    -- a record that is not expired would have stayed
    obtain ⟨path, hpath⟩ := mem_values.mp hr
    have hfind : s.recordOf name path = some r := by
      unfold recordOf
      rw [hns, Option.bind_some]
      exact hpath
    have hstays := foldl_expire_recordOf (s.expired ns₀) hfind fun hmem => by
      have hheld := (List.mem_filter.mp hmem).2
      rw [Bool.and_eq_true, Option.any_eq_true] at hheld
      obtain ⟨hh, deadline, hd, hle⟩ := hheld
      exact hnot ⟨hh, deadline, hd, by simpa using hle⟩
    unfold recordOf at hstays
    rw [hns', Option.bind_some] at hstays
    have hmem := mem_values.mpr ⟨path, hstays⟩
    rw [List.isEmpty_iff.mp hempty] at hmem
    cases hmem

theorem Claimed.expireHolds (h : s.Claimed) (hs : s.Sane) {name : String}
    (hover : s.HoldIsOver name → s.Unstaged name) :
    (s.expireHolds name).Claimed := by
  unfold ShareServer.expireHolds
  split
  · exact h
  · rename_i ns hns
    split
    · rename_i htask
      have hclaimed := Claimed.foldl (fun s r h => h.expire r) (s.expired ns) s h
      rcases endHold_cases ((s.expired ns).foldl ShareServer.expire s) name with
        hsame | ⟨t, ns', hsame, -, hns', hactive, hhold, hempty, heq⟩
      · exact hclaimed.same hsame
      · rw [heq]
        refine (hclaimed.same hsame).eraseNamespace fun r hr hname => ?_
        rw [hsame.staged] at hr
        rw [(hsame.places r).1, foldl_place expire_place] at hname
        exact hover (holdIsOver_of_release hns htask hns' hactive hhold hempty) r
          (foldl_expire_staged _ hs hr).1 hname
    · exact h

/-- A Context that closes its namespace goes through with it. -/
def ClosesNow (s : ShareServer) (name : String) (owner : Owner) : Prop :=
  ∃ ns, s.namespaces.lookup name = some ns ∧ ns.owner = owner ∧
    ∀ r ∈ ns.values, (s.place r).owner = owner → (s.registrations r).active = true →
      (s.registrations r).closed = true

theorem closesNow_of {name : String} {owner : Owner} {ns : ShareNamespace}
    (hns : s.namespaces.lookup name = some ns) (howner : ns.owner = owner)
    (hactive : ¬ (ns.values.any fun r => (s.registrations r).owner == owner &&
      (s.registrations r).active && !(s.registrations r).closed) = true) : s.ClosesNow name owner := by
  refine ⟨ns, hns, howner, fun r hr ho ha => ?_⟩
  by_contra hclosed
  refine hactive (List.any_eq_true.mpr ⟨r, hr, ?_⟩)
  have ho : (s.registrations r).owner = owner := ho
  have hclosed : (s.registrations r).closed = false := Bool.eq_false_iff.mpr hclosed
  simp [ho, ha, hclosed]

theorem Claimed.closeNamespace (h : s.Claimed) (hs : s.Sane) {name : String} {owner : Owner}
    (hown : s.ClosesNow name owner → ∀ r ∈ s.stagedReservations,
      (s.place r).inNamespace = name → (s.place r).owner = owner) :
    (s.closeNamespace name owner).Claimed := by
  unfold ShareServer.closeNamespace
  split
  · exact h
  · rename_i ns hns
    split
    · exact h
    · rename_i howner
      split
      · exact h
      · rename_i hactive
        dsimp only
        have hcloses := closesNow_of hns (not_not.mp howner) hactive
        have hplace := foldl_place expire_place ns.values s
        have hclaimed := Claimed.foldl (fun s r h => h.expire r) ns.values s h
        have hsane := Sane.foldl (fun s r h => h.expire r) ns.values s hs
        have hstaged : ∀ {j}, j ∈ (ns.values.foldl ShareServer.expire s).stagedReservations →
            j ∈ s.stagedReservations := fun hj => (foldl_expire_staged _ hs hj).1
        generalize ns.values.foldl ShareServer.expire s = t at hplace hclaimed hsane hstaged
        refine (Claimed.foldl (fun s r h => h.expire r) _ _ hclaimed).eraseNamespace
          fun r hr hname => ?_
        rw [foldl_place expire_place, hplace] at hname
        obtain ⟨hmem, hnot⟩ := foldl_expire_staged _ hsane hr
        have ho := hown hcloses r (hstaged hmem) hname
        refine hnot (List.mem_filter.mpr ⟨hmem, ?_⟩)
        have hreg : t.place r = s.place r := congrFun hplace r
        have hname' : (t.registrations r).inNamespace = name :=
          (congrArg Reservation.inNamespace hreg).trans hname
        have ho' : (t.registrations r).owner = owner := (congrArg Reservation.owner hreg).trans ho
        simp [hname', ho']

/-! ## Steps -/

/-- An event drops no namespace in which a reservation is staged that stays. -/
def KeepsClaims (s : ShareServer) (event : Event) : Prop :=
  (match event with
    | .expireHolds name => s.HoldIsOver name → s.Unstaged name
    | .closeNamespace name owner => s.ClosesNow name owner → ∀ r ∈ s.stagedReservations,
      (s.place r).inNamespace = name → (s.place r).owner = owner
    | _ => True) ∧
  ∀ name, s.dropsBlindly event = some name → s.Unstaged name

theorem Claimed.removeNext (h : s.Claimed) {task : Nat}
    (hunstaged : ∀ name, s.dropsBlindly (.removeNext task) = some name → s.Unstaged name)
    (hstep : step s (.removeNext task) = some s') : s'.Claimed := by
  dsimp only [step] at hstep
  split at hstep
  · cases hstep
  · rename_i registration r rest closes htask
    obtain rfl := Option.some.inj hstep
    exact h.removeRegistration r
  · rename_i registration closes htask
    obtain rfl := Option.some.inj hstep
    show (s.finishUnregister { registration, rest := [], closes }).Claimed
    unfold ShareServer.finishUnregister
    dsimp only
    split
    · rename_i hany
      refine h.eraseNamespace (hunstaged _ ?_)
      dsimp only [dropsBlindly]
      rw [htask]
      dsimp only
      rw [if_pos hany]
    · exact h

theorem Claimed.step (h : s.Claimed) (hs : s.Sane) {event : Event} (hkeeps : s.KeepsClaims event)
    (hstep : step s event = some s') : s'.Claimed := by
  by_cases htouches : event.touchesTables = true
  swap
  · exact h.same (step_same (Bool.eq_false_iff.mpr htouches) hstep)
  cases event with
  | reserve name spec owner replaces staged =>
    dsimp only [ShareServer.step] at hstep
    split at hstep
    · rename_i t hres
      obtain rfl := Option.some.inj hstep
      exact h.reserve hs hres
    · obtain rfl := Option.some.inj hstep
      exact h
  | commitReservations registrations =>
    obtain rfl := Option.some.inj hstep
    exact h.commitReservations registrations
  | expireHolds name =>
    dsimp only [ShareServer.step] at hstep
    split at hstep
    · obtain rfl := Option.some.inj hstep
      exact h.expireHolds hs hkeeps.1
    · cases hstep
  | closeNamespace name owner =>
    dsimp only [ShareServer.step] at hstep
    split at hstep
    · obtain rfl := Option.some.inj hstep
      exact h.closeNamespace hs hkeeps.1
    · cases hstep
  | releaseNamespace name owner =>
    dsimp only [ShareServer.step] at hstep
    split at hstep
    · cases hstep
    · obtain rfl := Option.some.inj hstep
      unfold ShareServer.releaseNamespace
      split
      · rename_i hany
        refine h.eraseNamespace (hkeeps.2 name ?_)
        dsimp only [dropsBlindly]
        rw [if_pos hany]
      · exact h
  | unregister r closeNamespace =>
    dsimp only [ShareServer.step] at hstep
    split at hstep
    · obtain rfl := Option.some.inj hstep
      exact h.same (unregister_same s r closeNamespace)
    · obtain rfl := Option.some.inj hstep
      exact h.removeRegistration r
  | removeNext task => exact h.removeNext hkeeps.2 hstep
  | _ => cases htouches

/-! ## Owners -/

/-- The namespaces that are left have been there before, with the same owners. -/
def SameOwners (s s' : ShareServer) : Prop :=
  ∀ name ns', s'.namespaces.lookup name = some ns' →
    ∃ ns, s.namespaces.lookup name = some ns ∧ ns'.owner = ns.owner

namespace SameOwners

theorem of_eq (h : s'.namespaces = s.namespaces) : SameOwners s s' :=
  fun _ ns' hns => ⟨ns', h ▸ hns, rfl⟩

theorem of_entries (h : SameEntries s s') : SameOwners s s' := by
  intro name ns' hns'
  obtain ⟨ns, hns, heq⟩ := h.2 name ns' hns'
  refine ⟨ns, hns, ?_⟩
  rw [heq]

theorem trans (h : SameOwners s s') (h' : SameOwners s' s'') : SameOwners s s'' := by
  intro name ns'' hns''
  obtain ⟨ns', hns', heq'⟩ := h' name ns'' hns''
  obtain ⟨ns, hns, heq⟩ := h name ns' hns'
  exact ⟨ns, hns, heq'.trans heq⟩

theorem foldl {f : ShareServer → Nat → ShareServer} (hf : ∀ s r, SameOwners s (f s r)) :
    ∀ (l : List Nat) (s : ShareServer), SameOwners s (l.foldl f s)
  | [], _ => of_eq rfl
  | r :: l, s => (hf s r).trans (foldl hf l (f s r))

theorem adjust {name : String} {f : ShareNamespace → ShareNamespace}
    (hspaces : s'.namespaces = Index.adjust s.namespaces name f)
    (hf : ∀ ns, (f ns).owner = ns.owner) : SameOwners s s' := by
  intro n ns' hns'
  rw [hspaces, Index.lookup_adjust] at hns'
  split at hns'
  · obtain ⟨ns, hns, rfl⟩ := Option.map_eq_some_iff.mp hns'
    exact ⟨ns, hns, hf ns⟩
  · exact ⟨ns', hns', rfl⟩

theorem eraseNamespace (s : ShareServer) (name : String) :
    SameOwners s { s with namespaces := s.namespaces.erase name } :=
  of_entries (.eraseNamespace s name)

theorem renewFuture (s : ShareServer) (r : Nat) : SameOwners s (s.renewFuture r) := by
  unfold ShareServer.renewFuture
  split
  · exact of_eq rfl
  · exact of_eq rfl

theorem enterPut (s : ShareServer) (r : Nat) : SameOwners s (s.enterPut r).1 := by
  unfold ShareServer.enterPut
  dsimp only
  split
  · split
    · exact of_eq rfl
    · exact of_eq rfl
  · split
    · exact of_eq rfl
    · exact of_eq rfl

theorem install (s : ShareServer) (r : Nat) (checksum : Option Checksum) :
    SameOwners s (s.install r checksum) := by
  unfold ShareServer.install
  dsimp only
  split
  · exact of_eq rfl
  · exact of_eq rfl

theorem endHold (s : ShareServer) (name : String) : SameOwners s (s.endHold name) := by
  have hfirst : SameOwners s (s.modifyNamespace name fun ns =>
      { ns with holdUntil := ns.holdUntil.filter (s.now < ·) }) := adjust rfl fun _ => rfl
  unfold ShareServer.endHold
  dsimp only
  split
  · exact hfirst
  · split
    · exact hfirst.trans (eraseNamespace _ _)
    · split
      · exact hfirst
      · exact hfirst.trans (adjust rfl fun _ => rfl)

theorem expireHolds (s : ShareServer) (name : String) : SameOwners s (s.expireHolds name) := by
  unfold ShareServer.expireHolds
  split
  · exact of_eq rfl
  · split
    · exact (foldl (fun s r => of_entries (.expire s r)) _ s).trans (endHold _ _)
    · exact of_eq rfl

theorem closeNamespace (s : ShareServer) (name : String) (owner : Owner) :
    SameOwners s (s.closeNamespace name owner) := by
  unfold ShareServer.closeNamespace
  split
  · exact of_eq rfl
  · split
    · exact of_eq rfl
    · split
      · exact of_eq rfl
      · dsimp only
        refine SameOwners.trans ?_ (eraseNamespace _ _)
        exact (foldl (fun s r => of_entries (.expire s r)) _ s).trans
          (foldl (fun s r => of_entries (.expire s r)) _ _)

theorem holdUntil (deadline : Nat) (s : ShareServer) (r : Nat) :
    SameOwners s (ShareServer.holdUntil deadline s r) :=
  SameOwners.trans (of_eq rfl) (renewFuture _ _)

end SameOwners

/-- Does an event reserve or publish? -/
def Event.enters : Event → Bool
  | .reserve .. | .commitReservations .. => true
  | _ => false

theorem step_sameOwners {event : Event} (henters : event.enters = false)
    (hstep : step s event = some s') : SameOwners s s' := by
  have hsame : ∀ {t : ShareServer}, some t = some s' → SameOwners s t → SameOwners s s' :=
    fun heq ht => Option.some.inj heq ▸ ht
  cases event with
  | start => exact hsame hstep (.of_eq rfl)
  | tick duration => exact hsame hstep (.of_eq rfl)
  | activate r =>
    dsimp only [step] at hstep
    split at hstep
    · refine hsame hstep ?_
      unfold activate
      split
      · exact .of_eq rfl
      · exact .of_eq rfl
    · cases hstep
  | completeReattach r =>
    dsimp only [step] at hstep
    split at hstep
    · refine hsame hstep ?_
      unfold completeReattach
      dsimp only
      split
      · exact .of_eq rfl
      · split
        · exact .of_eq rfl
        · refine SameOwners.trans ?_ (.of_entries (.complete ..))
          exact .of_eq rfl
    · cases hstep
  | deliver r seq checksum expected =>
    dsimp only [step] at hstep
    split at hstep
    · refine hsame hstep ?_
      unfold deliver
      dsimp only
      split
      · exact .of_eq rfl
      · split
        · exact .of_eq rfl
        · exact .install _ _ _
    · cases hstep
  | beginCloseNamespace name owner =>
    dsimp only [step] at hstep
    split at hstep
    · refine hsame hstep ?_
      unfold beginCloseNamespace
      split
      · exact .of_eq rfl
      · split
        · exact .of_eq rfl
        · refine SameOwners.trans ?_ (.foldl .renewFuture _ _)
          exact .adjust rfl fun _ => rfl
    · exact hsame hstep (.of_eq rfl)
  | holdRegistration r =>
    dsimp only [step] at hstep
    split at hstep
    · refine hsame hstep ?_
      unfold holdRegistration
      split
      · exact .of_eq rfl
      · exact SameOwners.trans (.of_eq rfl) (.renewFuture _ _)
    · cases hstep
  | holdNamespace name owner timeout =>
    dsimp only [step] at hstep
    split at hstep
    · refine hsame hstep ?_
      unfold holdNamespace
      split
      · exact .of_eq rfl
      · split
        · exact .of_eq rfl
        · refine SameOwners.trans ?_ (.foldl (.holdUntil _) _ _)
          exact .adjust rfl fun _ => rfl
    · exact hsame hstep (.of_eq rfl)
  | expireHolds name =>
    dsimp only [step] at hstep
    split at hstep
    · exact hsame hstep (.expireHolds _ _)
    · cases hstep
  | closeNamespace name owner =>
    dsimp only [step] at hstep
    split at hstep
    · exact hsame hstep (.closeNamespace _ _ _)
    · cases hstep
  | releaseNamespace name owner =>
    dsimp only [step] at hstep
    split at hstep
    · cases hstep
    · refine hsame hstep ?_
      unfold releaseNamespace
      split
      · exact .eraseNamespace _ _
      · exact .of_eq rfl
  | unregister r closeNamespace =>
    dsimp only [step] at hstep
    split at hstep
    · exact hsame hstep (.of_eq rfl)
    · exact hsame hstep (.of_entries (.removeRegistration ..))
  | removeNext task =>
    dsimp only [step] at hstep
    split at hstep
    · cases hstep
    · refine hsame hstep ?_
      exact SameOwners.trans (.of_entries (.removeRegistration ..)) (.of_eq rfl)
    · refine hsame hstep ?_
      refine SameOwners.trans ?_ (.of_eq rfl)
      unfold finishUnregister
      dsimp only
      split
      · exact .eraseNamespace _ _
      · exact .of_eq rfl
  | put url marker =>
    dsimp only [step] at hstep
    split at hstep
    · cases hstep
    · split at hstep
      · exact hsame hstep (.of_eq rfl)
      · exact hsame hstep (SameOwners.trans (.enterPut _ _) (.of_eq rfl))
  | resumePut i =>
    dsimp only [step] at hstep
    split at hstep
    · split at hstep
      · cases hstep
      · exact hsame hstep (.of_eq rfl)
      · exact hsame hstep (SameOwners.trans (.enterPut _ _) (.of_eq rfl))
    · cases hstep
  | timeoutPut i =>
    dsimp only [step] at hstep
    split at hstep
    · exact hsame hstep (.of_eq rfl)
    · cases hstep
  | installPut i value =>
    dsimp only [step] at hstep
    split at hstep
    · refine hsame hstep (SameOwners.trans ?_ (.of_eq rfl))
      unfold installPut
      split
      · exact .of_eq rfl
      · dsimp only
        split
        · exact .of_eq rfl
        · split
          · exact .of_eq rfl
          · exact .install _ _ _
    · cases hstep
  | _ => cases henters

end ShareServer

end SeamlessWorkflow
