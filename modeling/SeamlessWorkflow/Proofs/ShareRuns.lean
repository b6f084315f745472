import SeamlessWorkflow.Proofs.ShareOwners

/-!
# Runs of the share server keep its registry

What is published in a namespace is its owner's, each URL is answered by the one registration that has
it, and the three tables agree, as long as no step takes one of the wrong turns of the code.
-/

namespace SeamlessWorkflow

namespace ShareServer

variable {s s' : ShareServer} {spare lost : Nat → Prop}

/-! ## Changing hands -/

/-- A namespace changes hands only when it can be taken over. -/
def HandsOver (s s' : ShareServer) : Prop :=
  ∀ name ns ns', s.namespaces.lookup name = some ns → s'.namespaces.lookup name = some ns' →
    ns'.owner = ns.owner ∨ ∃ owner, s.canTakeOver name (some owner) = true

/-- What becomes live is the owner's of its namespace. -/
def PublishesOwn (s s' : ShareServer) : Prop :=
  ∀ r, ¬ s.Live r → s'.Live r → ∃ ns, s'.namespaces.lookup (s'.place r).inNamespace = some ns ∧
    ns.owner = (s'.place r).owner

theorem HandsOver.trans_sameOwners {t : ShareServer} (h : HandsOver s t) (h' : SameOwners t s') :
    HandsOver s s' := by
  intro name ns ns' hns hns'
  obtain ⟨mid, hmid, howner⟩ := h' name ns' hns'
  rw [howner]
  exact h name ns mid hns hmid

theorem SameOwners.handsOver (h : SameOwners s s') : HandsOver s s' := by
  intro name ns ns' hns hns'
  obtain ⟨ns₀, hns₀, howner⟩ := h name ns' hns'
  rw [hns] at hns₀
  exact Or.inl (howner.trans (congrArg ShareNamespace.owner (Option.some.inj hns₀).symm))

theorem takeOver_lookup (s : ShareServer) (name : String) (owner : Owner) {n : String}
    {ns' : ShareNamespace} (h : (s.takeOver name owner).namespaces.lookup n = some ns') :
    ∃ ns, s.namespaces.lookup n = some ns ∧
      (ns' = ns ∧ (n = name → s.canTakeOver name (some owner) = false) ∨
        n = name ∧ s.canTakeOver name (some owner) = true ∧
          ns' = { ns with owner, ownerActive := true, closing := false, holdUntil := none }) := by
  unfold takeOver at h
  split at h
  · rename_i hcan
    change (Index.adjust s.namespaces name _).lookup n = some ns' at h
    rw [Index.lookup_adjust] at h
    split at h
    · rename_i hn
      obtain ⟨ns, hns, rfl⟩ := Option.map_eq_some_iff.mp h
      exact ⟨ns, hns, Or.inr ⟨hn, hcan, rfl⟩⟩
    · rename_i hn
      exact ⟨ns', h, Or.inl ⟨rfl, fun hn' => absurd hn' hn⟩⟩
  · rename_i hcan
    exact ⟨ns', h, Or.inl ⟨rfl, fun _ => Bool.eq_false_iff.mpr hcan⟩⟩

theorem canTakeOver_iff (s : ShareServer) (name : String) (owner : Owner) :
    s.canTakeOver name (some owner) = true ↔ ∃ ns, s.namespaces.lookup name = some ns ∧
      ns.owner ≠ owner ∧ ns.ownerActive = false ∧ ∃ deadline, ns.holdUntil = some deadline ∧
        s.now < deadline := by
  unfold canTakeOver
  rw [Option.any_eq_true]
  refine exists_congr fun ns => and_congr_right fun _ => ?_
  rw [Option.any_some, Bool.and_eq_true, Bool.and_eq_true, Option.any_eq_true]
  simp only [bne_iff_ne, Bool.not_eq_true', decide_eq_true_eq, and_assoc]

/-- Entries that are the same allow the same. -/
theorem SameEntries.canTakeOver (h : SameEntries s s') {name : String} {owner : Owner}
    (hcan : s'.canTakeOver name (some owner) = true) : s.canTakeOver name (some owner) = true := by
  obtain ⟨ns', hns', howner, hactive, deadline, hhold, hlt⟩ := (canTakeOver_iff ..).mp hcan
  obtain ⟨ns, hns, heq⟩ := h.2 name ns' hns'
  rw [heq] at howner hactive hhold
  exact (canTakeOver_iff ..).mpr ⟨ns, hns, howner, hactive, deadline, hhold, h.1 ▸ hlt⟩

/-- A namespace that has been taken over is not taken over again. -/
theorem canTakeOver_takeOver {name n : String} {owner owner' : Owner}
    (hcan : (s.takeOver name owner).canTakeOver n (some owner') = true) :
    s.canTakeOver n (some owner') = true := by
  obtain ⟨ns', hns', howner, hactive, deadline, hhold, hlt⟩ := (canTakeOver_iff ..).mp hcan
  have hnow : (s.takeOver name owner).now = s.now := by
    unfold takeOver
    split <;> rfl
  rw [hnow] at hlt
  obtain ⟨ns, hns, ⟨rfl, -⟩ | ⟨-, -, rfl⟩⟩ := takeOver_lookup s name owner hns'
  · exact (canTakeOver_iff ..).mpr ⟨ns', hns, howner, hactive, deadline, hhold, hlt⟩
  · cases hactive

theorem takeOverAll_handsOver (registrations : List Nat) :
    ∀ s : ShareServer, HandsOver s (takeOverAll registrations s).2 := by
  induction registrations with
  | nil => exact fun s => (SameOwners.of_eq rfl).handsOver
  | cons r registrations ih =>
    intro s name ns ns' hns hns'
    unfold takeOverAll at hns'
    dsimp only at hns'
    split at hns'
    · rw [hns] at hns'
      exact Or.inl (congrArg ShareNamespace.owner (Option.some.inj hns').symm)
    · cases hmid : (s.takeOver (s.registrations r).inNamespace
          (s.registrations r).owner).namespaces.lookup name with
      | none =>
        have := (takeOver_same s (s.registrations r).inNamespace (s.registrations r).owner).spaces
          name (by rw [hns]; rfl)
        rw [hmid] at this
        cases this
      | some mid =>
        rcases ih _ name mid ns' hmid hns' with howner | ⟨owner, hcan⟩
        · obtain ⟨ns₀, hns₀, ⟨rfl, -⟩ | ⟨rfl, hcan, -⟩⟩ := takeOver_lookup s _ _ hmid
          · rw [hns] at hns₀
            exact Or.inl (howner.trans (congrArg ShareNamespace.owner (Option.some.inj hns₀).symm))
          · exact Or.inr ⟨_, hcan⟩
        · exact Or.inr ⟨owner, canTakeOver_takeOver hcan⟩

/-- Whoever may publish in a namespace owns it, or can take it over. -/
def MayEnter (s : ShareServer) (name : String) (owner : Owner) : Prop :=
  ∃ ns, s.namespaces.lookup name = some ns ∧
    (ns.owner = owner ∨ s.canTakeOver name (some owner) = true)

theorem MayEnter.takeOver {name : String} {owner : Owner} (h : s.MayEnter name owner) :
    ∃ ns, (s.takeOver name owner).namespaces.lookup name = some ns ∧ ns.owner = owner := by
  obtain ⟨ns, hns, hor⟩ := h
  have hsome := (takeOver_same s name owner).spaces name (by rw [hns]; rfl)
  obtain ⟨ns', hns'⟩ := Option.isSome_iff_exists.mp hsome
  refine ⟨ns', hns', ?_⟩
  obtain ⟨ns₀, hns₀, ⟨rfl, hnot⟩ | ⟨-, -, rfl⟩⟩ := takeOver_lookup s name owner hns'
  · obtain rfl := Option.some.inj (hns₀.symm.trans hns)
    rcases hor with howner | hcan
    · exact howner
    · rw [hnot rfl] at hcan
      cases hcan
  · rfl

/-- The owner of a namespace does not take it over, and nobody else does so in its place. -/
theorem takeOver_owned {name n : String} {owner owner' : Owner} {ns : ShareNamespace}
    (hns : s.namespaces.lookup n = some ns) (howner : ns.owner = owner)
    (hsame : n = name → owner' = owner) :
    ∃ ns', (s.takeOver name owner').namespaces.lookup n = some ns' ∧ ns'.owner = owner := by
  have hsome := (takeOver_same s name owner').spaces n (by rw [hns]; rfl)
  obtain ⟨ns', hns'⟩ := Option.isSome_iff_exists.mp hsome
  refine ⟨ns', hns', ?_⟩
  obtain ⟨ns₀, hns₀, ⟨rfl, -⟩ | ⟨hn, -, rfl⟩⟩ := takeOver_lookup s name owner' hns'
  · obtain rfl := Option.some.inj (hns₀.symm.trans hns)
    exact howner
  · exact hsame hn

theorem MayEnter.other {name n : String} {owner owner' : Owner} (h : s.MayEnter n owner)
    (hne : n ≠ name) : (s.takeOver name owner').MayEnter n owner := by
  obtain ⟨ns, hns, hor⟩ := h
  have hlookup : (s.takeOver name owner').namespaces.lookup n = some ns := by
    unfold ShareServer.takeOver
    split
    · show (Index.adjust s.namespaces name _).lookup n = some ns
      rw [Index.lookup_adjust, if_neg hne]
      exact hns
    · exact hns
  refine ⟨ns, hlookup, hor.imp id fun hcan => ?_⟩
  obtain ⟨ns₀, hns₀, howner, hactive, deadline, hhold, hlt⟩ := (canTakeOver_iff ..).mp hcan
  obtain rfl := Option.some.inj (hns₀.symm.trans hns)
  have hnow : (s.takeOver name owner').now = s.now := by
    unfold ShareServer.takeOver
    split <;> rfl
  exact (canTakeOver_iff ..).mpr ⟨ns₀, hlookup, howner, hactive, deadline, hhold, hnow ▸ hlt⟩

/-- After the first loop of a commit, the registrations of a namespace own it. -/
theorem takeOverAll_owned (registrations : List Nat) : ∀ {s : ShareServer} {n : String} {owner : Owner},
    (takeOverAll registrations s).1 = .ok () →
    (∀ r ∈ registrations, (s.place r).inNamespace = n → (s.place r).owner = owner) →
    ((∃ ns, s.namespaces.lookup n = some ns ∧ ns.owner = owner) ∨
      s.MayEnter n owner ∧ ∃ r ∈ registrations, (s.place r).inNamespace = n) →
    ∃ ns, (takeOverAll registrations s).2.namespaces.lookup n = some ns ∧ ns.owner = owner := by
  induction registrations with
  | nil =>
    intro s n owner _ _ h
    rcases h with h | ⟨-, r, hr, -⟩
    · exact h
    · cases hr
  | cons r registrations ih =>
    intro s n owner hok hsame h
    unfold takeOverAll at hok ⊢
    dsimp only at hok ⊢
    split at hok
    · cases hok
    · rename_i hsome
      rw [if_neg hsome]
      have hplace : ∀ j, (s.takeOver (s.registrations r).inNamespace
          (s.registrations r).owner).place j = s.place j := fun j => ((takeOver_same ..).places j).1
      have hr := hsame r (List.mem_cons_self ..)
      refine ih hok (fun j hj => ?_) ?_
      · rw [hplace]
        exact hsame j (List.mem_cons_of_mem _ hj)
      · rcases h with ⟨ns, hns, howner⟩ | ⟨hmay, j, hj, hjn⟩
        · exact Or.inl (takeOver_owned hns howner fun hn => hr hn.symm)
        · by_cases hn : (s.place r).inNamespace = n
          · refine Or.inl ?_
            have htake := hmay.takeOver
            rw [← hn, ← hr hn] at htake
            rw [← hr hn, ← hn]
            exact htake
          · rcases List.mem_cons.mp hj with rfl | hj
            · exact absurd hjn hn
            · refine Or.inr ⟨hmay.other (Ne.symm hn), j, hj, ?_⟩
              rw [hplace]
              exact hjn

/-! ## Reserving and committing -/

theorem putRecord_entries (s : ShareServer) (r : Nat) : SameEntries s (s.putRecord r) := by
  refine ⟨rfl, fun n ns' hns' => ?_⟩
  change (Index.adjust s.namespaces _ _).lookup n = some ns' at hns'
  rw [Index.lookup_adjust] at hns'
  split at hns'
  · obtain ⟨ns, hns, rfl⟩ := Option.map_eq_some_iff.mp hns'
    exact ⟨ns, hns, rfl⟩
  · exact ⟨ns', hns', rfl⟩

/-- An unstaged registration is entered after its namespace has been taken over, if it can be. -/
theorem placeUnstaged_eq (s : ShareServer) (r : Nat) : ∃ t, SameEntries s t ∧
    (∀ j, t.Live j → s.Live j) ∧ (∀ j, t.place j = s.place j) ∧
    s.placeUnstaged r = (t.takeOver (s.place r).inNamespace (s.place r).owner).putRecord r := by
  unfold placeUnstaged
  dsimp only
  split
  · exact ⟨s, .of_eq rfl rfl, fun _ h => h, fun _ => rfl, rfl⟩
  · rename_i held _
    have hadopt := adoptHeldRegistration_same s r held
    refine ⟨(s.adoptHeldRegistration r held).removeRegistration held,
      SameEntries.trans (.of_eq rfl rfl) (.removeRegistration ..), fun j hj => ?_, fun j => ?_, rfl⟩
    · exact (hadopt.live j).mp ((removeRegistration_live ..).mp hj).1
    · rw [removeRegistration_place]
      exact (hadopt.places j).1

theorem claimNamespace_lookup (s : ShareServer) (name : String) (owner : Option Owner)
    (staged : Bool) {n : String} {ns' : ShareNamespace}
    (h : (s.claimNamespace name owner staged).namespaces.lookup n = some ns') :
    s.namespaces.lookup n = some ns' ∨
      n = name ∧ s.namespaces.lookup name = none ∧
        ns'.owner = (s.claimNamespace name owner staged).registrationOwner name owner := by
  unfold claimNamespace at h ⊢
  split at h
  · exact Or.inl h
  · rename_i hnone
    have hnone : s.namespaces.lookup name = none := by simpa using hnone
    rw [if_neg (by simp [hnone])]
    dsimp only at h
    by_cases hn : n = name
    · rw [hn, AList.lookup_insert] at h
      refine Or.inr ⟨hn, hnone, ?_⟩
      unfold registrationOwner
      dsimp only
      rw [AList.lookup_insert, Option.map_some, Option.getD_some, ← Option.some.inj h]
      cases owner <;> rfl
    · rw [AList.lookup_insert_ne hn] at h
      exact Or.inl h

theorem reserve_handsOver {name : String} {spec : ServedSpec} {owner : Option Owner}
    {replaces : List Nat} {staged : Bool}
    (hres : s.reserve name spec owner replaces staged = .ok s') : HandsOver s s' := by
  obtain ⟨place, reg, hreg, hname, -, -, -, -, hs'⟩ := reserve_cases hres
  intro n ns ns' hns hns'
  have hclaim : ∀ ns'', (s.claimNamespace name owner staged).namespaces.lookup n = some ns'' →
      ns'' = ns := by
    intro ns'' hns''
    rcases claimNamespace_lookup s name owner staged hns'' with hold | ⟨rfl, hnone, -⟩
    · rw [hns] at hold
      exact (Option.some.inj hold).symm
    · rw [hns] at hnone
      cases hnone
  have hnow : (s.claimNamespace name owner staged).now = s.now := by
    unfold claimNamespace
    split <;> rfl
  cases hstaged : staged with
  | true =>
    rw [hstaged] at hs' hclaim
    rw [hs', if_pos rfl] at hns'
    rw [hclaim ns' hns']
    exact Or.inl rfl
  | false =>
    rw [hstaged] at hs' hclaim hnow
    rw [hs', if_neg (by simp)] at hns'
    obtain ⟨t, ht, -, -, heq⟩ := placeUnstaged_eq
      ((s.claimNamespace name owner false).allocate reg) s.registrationCount
    rw [heq] at hns'
    obtain ⟨ns₁, hns₁, h₁⟩ := (putRecord_entries _ _).2 n ns' hns'
    obtain ⟨ns₂, hns₂, h₂⟩ := takeOver_lookup t _ _ hns₁
    obtain ⟨ns₃, hns₃, h₃⟩ := ht.2 n ns₂ hns₂
    obtain rfl := hclaim ns₃ hns₃
    rcases h₂ with ⟨rfl, -⟩ | ⟨hn, hcan, -⟩
    · refine Or.inl ?_
      rw [h₁]
      show ns₁.owner = ns₃.owner
      rw [h₃]
    · rw [← hn] at hcan
      obtain ⟨ns₄, hns₄, howner, hactive, deadline, hhold, hlt⟩ :=
        (canTakeOver_iff ..).mp (ht.canTakeOver hcan)
      obtain rfl := hclaim ns₄ hns₄
      have hnow' : ((s.claimNamespace name owner false).allocate reg).now = s.now := hnow
      rw [hnow'] at hlt
      exact Or.inr ⟨_, (canTakeOver_iff ..).mpr ⟨ns₄, hns, howner, hactive, deadline, hhold, hlt⟩⟩

/-- The first check: whoever reserves in a namespace owns it or can take it over. -/
theorem mayEnter_of_checks {name : String} {spec : ServedSpec} {route : Route} {owner : Owner}
    {replaces ignoreStaged : List Nat}
    (h : ∀ check ∈ s.reservationChecks name spec route (some owner) replaces ignoreStaged,
      check.1 = false) (hns : (s.namespaces.lookup name).isSome = true) : s.MayEnter name owner := by
  have hfirst := h _ (List.mem_append_left _ (List.mem_append_left _ (List.mem_cons_self ..)))
  dsimp only at hfirst
  obtain ⟨ns, hlookup⟩ := Option.isSome_iff_exists.mp hns
  refine ⟨ns, hlookup, ?_⟩
  rw [hlookup] at hfirst
  cases hcan : s.canTakeOver name (some owner) with
  | true => exact Or.inr rfl
  | false =>
    refine Or.inl ?_
    rw [hcan] at hfirst
    have : owner = ns.owner := by simpa using hfirst
    exact this.symm

theorem Indexed.space (h : s.Indexed (fun _ => False) fun _ => False) {r : Nat} (hr : s.Live r) :
    (s.namespaces.lookup (s.place r).inNamespace).isSome = true := by
  have hfind := h.table.complete hr not_false rfl
  unfold recordOf at hfind
  cases hns : s.namespaces.lookup (s.place r).inNamespace with
  | none =>
    rw [hns] at hfind
    cases hfind
  | some ns => rfl

theorem reserve_publishesOwn (hi : s'.Indexed (fun _ => False) fun _ => False)
    {name : String} {spec : ServedSpec} {owner : Option Owner} {replaces : List Nat} {staged : Bool}
    (hres : s.reserve name spec owner replaces staged = .ok s') : PublishesOwn s s' := by
  obtain ⟨place, reg, hreg, hname, hspec, -, howner, hchecks, hs'⟩ := reserve_cases hres
  intro r hnot hr
  have hclaim := claimNamespace_same s name owner staged
  have hregs := claimNamespace_registrations s name owner staged
  obtain ⟨ns', hns'⟩ := Option.isSome_iff_exists.mp (hi.space hr)
  refine ⟨ns', hns', ?_⟩
  -- only the new registration can be meant
  have hlive_alloc : ∀ {j}, ((s.claimNamespace name owner staged).allocate reg).Live j →
      j = s.registrationCount ∨ s.Live j := by
    intro j hj
    unfold Live at hj
    rw [allocate_registrations, hclaim.count, hregs] at hj
    split at hj
    · exact Or.inl ‹_›
    · exact Or.inr hj
  cases hstaged : staged with
  | true =>
    rw [hstaged] at hs' hclaim hregs hreg hlive_alloc
    exfalso
    rw [hs', if_pos rfl] at hr
    rcases hlive_alloc hr with rfl | hold
    · have hr : ((s.claimNamespace name owner true).allocate reg).Live s.registrationCount := hr
      unfold Live at hr
      rw [allocate_registrations, hclaim.count, if_pos rfl, hreg] at hr
      cases hr.2
    · exact hnot hold
  | false =>
    rw [hstaged] at hs' hclaim hregs hreg howner hlive_alloc
    have hnew : ((s.claimNamespace name owner false).allocate reg).place s.registrationCount =
        place := by
      unfold ShareServer.place
      rw [allocate_registrations, hclaim.count, if_pos rfl, hreg]
    obtain ⟨t, ht, hlive, hplace, heq⟩ := placeUnstaged_eq
      ((s.claimNamespace name owner false).allocate reg) s.registrationCount
    rw [hnew] at heq
    rw [hs', if_neg (by simp), heq] at hr hns' ⊢
    have htake := takeOver_same t place.inNamespace place.owner
    have hr' : t.Live r := (htake.live r).mp hr
    have hput : ((t.takeOver place.inNamespace place.owner).putRecord r).place r = t.place r :=
      (htake.places r).1
    rcases hlive_alloc (hlive r hr') with rfl | hold
    swap
    · exact absurd hold hnot
    have hfinal : ((t.takeOver place.inNamespace place.owner).putRecord
        s.registrationCount).place s.registrationCount = place := by
      rw [hput, hplace, hnew]
    rw [hfinal] at hns' ⊢
    rw [hname] at hns'
    obtain ⟨ns₁, hns₁, h₁⟩ := (putRecord_entries _ _).2 name ns' hns'
    rw [h₁]
    show ns₁.owner = place.owner
    obtain ⟨ns₂, hns₂, h₂⟩ := takeOver_lookup t _ _ hns₁
    obtain ⟨ns₃, hns₃, h₃⟩ := ht.2 name ns₂ hns₂
    rcases h₂ with ⟨rfl, hcannot⟩ | ⟨-, -, rfl⟩
    swap
    · rfl
    have howner₃ : ns₁.owner = ns₃.owner := by rw [h₃]
    rcases claimNamespace_lookup s name owner false hns₃ with hold | ⟨-, -, hclaimed⟩
    swap
    · rw [howner₃, hclaimed, howner]
    -- the namespace has been there before
    cases howner_some : owner with
    | none =>
      rw [howner_some] at hchecks
      have hfirst := hchecks _
        (List.mem_append_left _ (List.mem_append_left _ (List.mem_cons_self ..)))
      rw [hold] at hfirst
      cases hfirst
    | some o =>
      rw [howner_some] at hchecks howner
      have hplace_owner : place.owner = o := howner
      obtain ⟨ns₄, hns₄, hor⟩ := mayEnter_of_checks hchecks (by rw [hold]; rfl)
      obtain rfl := Option.some.inj (hns₄.symm.trans hold)
      rcases hor with hown | hcan
      · rw [howner₃, hown, hplace_owner]
      · obtain ⟨ns₅, hns₅, hne, hactive, deadline, hhold, hlt⟩ := (canTakeOver_iff ..).mp hcan
        obtain rfl := Option.some.inj (hns₅.symm.trans hold)
        have hnow : t.now = s.now := by
          rw [ht.1]
          show (s.claimNamespace name owner false).now = s.now
          unfold claimNamespace
          split <;> rfl
        have hcan' : t.canTakeOver place.inNamespace (some place.owner) = true := by
          refine (canTakeOver_iff ..).mpr ⟨ns₁, ?_, ?_, ?_, deadline, ?_, hnow ▸ hlt⟩
          · rw [hname]
            exact hns₂
          · rw [howner₃, hplace_owner]
            exact hne
          · rw [h₃]
            exact hactive
          · rw [h₃]
            exact hhold
        rw [hname, hcannot rfl] at hcan'
        cases hcan'

/-- Entering a batch makes no other registration live, and moves no namespace. -/
theorem publishAll_spec (registrations : List Nat) : ∀ {s : ShareServer}, s.Sane →
    registrations.Nodup → (∀ r ∈ registrations, r ∈ s.stagedReservations) →
    (∀ j, (publishAll registrations s).1.Live j → j ∈ registrations ∨ s.Live j) ∧
      (∀ j, (publishAll registrations s).1.place j = s.place j) ∧
      SameOwners s (publishAll registrations s).1 := by
  induction registrations with
  | nil => exact fun _ _ _ => ⟨fun j hj => Or.inr hj, fun j => rfl, .of_eq rfl⟩
  | cons r registrations ih =>
    intro s hs hnodup hmem
    obtain ⟨hnot, hnodup⟩ := List.nodup_cons.mp hnodup
    obtain ⟨t, hsame, ht, howners⟩ : ∃ t, SamePlaces s t ∧ s.publish r = t.unstage r ∧
        SameOwners s t := by
      refine ⟨_, (adoptIfHeld_same s r).trans (raiseMarker_same ..), rfl, ?_⟩
      refine SameOwners.trans ?_ (.of_eq rfl)
      unfold adoptIfHeld
      dsimp only
      split
      · exact .of_eq rfl
      · exact .of_eq rfl
    have hclosed : (t.registrations r).closed = false := by
      rw [(hsame.places r).2.2]
      exact (hs.staged r (hmem r (List.mem_cons_self ..))).2
    have hplace : ∀ j, (t.unstage r).place j = s.place j := by
      intro j
      rw [← (hsame.places j).1]
      show ((t.modify r fun reg => { reg with staged := false }).registrations j).toReservation = _
      rw [modify_registrations]
      split
      · rename_i hj
        rw [hj]
        rfl
      · rfl
    have hput : SameOwners t ((t.modify r fun reg => { reg with staged := false }).putRecord r) :=
      .adjust rfl fun _ => rfl
    have hunstage : SameOwners t (t.unstage r) := hput.trans (.adjust rfl fun _ => rfl)
    obtain ⟨hlive, hplace', howners'⟩ := ih ((hsame.sane hs).unstage hclosed) hnodup fun j hj => by
      have hne : j ≠ r := fun hjr => hnot (hjr ▸ hj)
      refine List.mem_filter.mpr ⟨?_, by simpa using hne⟩
      show j ∈ t.stagedReservations
      exact hsame.staged.symm ▸ hmem j (List.mem_cons_of_mem _ hj)
    have hunfold : (publishAll (r :: registrations) s).1 =
        (publishAll registrations (s.publish r)).1 := rfl
    rw [hunfold, ht]
    refine ⟨fun j hj => ?_, fun j => (hplace' j).trans (hplace j),
      howners.trans (hunstage.trans howners')⟩
    rcases hlive j hj with hmem' | hl
    · exact Or.inl (List.mem_cons_of_mem _ hmem')
    · rcases (unstage_live t hclosed j).mp hl with rfl | hl
      · exact Or.inl (List.mem_cons_self ..)
      · exact Or.inr ((hsame.live j).mp hl)

/-- A batch belongs to one Context. -/
def OneOwner (s : ShareServer) (registrations : List Nat) : Prop :=
  ∀ r ∈ registrations, ∀ r' ∈ registrations, (s.place r).inNamespace = (s.place r').inNamespace →
    (s.place r).owner = (s.place r').owner

theorem commit_owners (hs : s.Sane) (hi : s.Indexed (fun _ => False) fun _ => False)
    {registrations : List Nat} (hone : s.OneOwner registrations) :
    HandsOver s (s.commitReservations registrations).2 ∧
      PublishesOwn s (s.commitReservations registrations).2 := by
  have hafter := (hi.commitReservations hs registrations).1
  rcases commitReservations_cases s registrations with
    ⟨-, hsame, heq⟩ | ⟨hchecks, htake, heq⟩
  · refine ⟨?_, fun r hnot hr => absurd ((hsame.live r).mp hr) hnot⟩
    rcases heq with heq | ⟨-, heq⟩
    · rw [heq]
      exact (SameOwners.of_eq rfl).handsOver
    · rw [heq]
      exact takeOverAll_handsOver registrations s
  · obtain ⟨hstaged, hnodup⟩ := commitChecks_ok hchecks
    have hsame := takeOverAll_same registrations s
    obtain ⟨hlive, hplace, howners⟩ := publishAll_spec registrations (hsame.sane hs) hnodup
      fun r hr => hsame.staged.symm ▸ hstaged r hr
    have hremoved := howners.trans (SameOwners.foldl (fun s r => .of_entries (.removeRegistration s r))
      (publishAll registrations (takeOverAll registrations s).2).2 _)
    rw [← heq] at hremoved
    refine ⟨(takeOverAll_handsOver registrations s).trans_sameOwners hremoved, fun r hnot hr => ?_⟩
    have hplace' : (s.commitReservations registrations).2.place r = s.place r := by
      rw [heq, foldl_place removeRegistration_place, hplace]
      exact (hsame.places r).1
    -- what becomes live is of the batch
    have hmem : r ∈ registrations := by
      rw [heq] at hr
      have hbatch := ((foldl_live removeRegistration_live _ _ r).mp hr).1
      rcases hlive r hbatch with hmem | hold
      · exact hmem
      · exact absurd ((hsame.live r).mp hold) hnot
    obtain ⟨ns', hns'⟩ := Option.isSome_iff_exists.mp (hafter.space hr)
    refine ⟨ns', hns', ?_⟩
    obtain ⟨ns, hns, howner⟩ := hremoved _ ns' hns'
    rw [hplace'] at hns ⊢
    have hspace := takeOverAll_ok registrations htake r hmem
    have hown : ∀ check ∈ s.reservationChecks (s.place r).inNamespace (s.place r).spec
        (s.place r).route (some (s.place r).owner) (s.place r).replaces registrations,
        check.1 = false := fun check hcheck => hchecks check (List.mem_append_left _
      (List.mem_flatMap.mpr ⟨r, hmem, List.mem_append_right _ hcheck⟩))
    have hmay := mayEnter_of_checks hown hspace
    obtain ⟨ns₀, hns₀, howner₀⟩ := takeOverAll_owned registrations htake
      (fun j hj hn => hone j hj r hmem hn) (Or.inr ⟨hmay, r, hmem, rfl⟩)
    rw [howner, ← howner₀]
    exact congrArg ShareNamespace.owner (Option.some.inj (hns.symm.trans hns₀))

/-- A commit whose reservations have their namespaces raises before it has done anything. -/
theorem Claimed.commit_error (h : s.Claimed) {registrations : List Nat} {e : ShareError}
    (herror : (s.commitReservations registrations).1 = .error e) :
    (s.commitReservations registrations).2 = s := by
  have htake : ∀ (registrations : List Nat) (t : ShareServer),
      (∀ r ∈ registrations, (t.namespaces.lookup (t.place r).inNamespace).isSome = true) →
        (takeOverAll registrations t).1 = .ok () := by
    intro registrations
    induction registrations with
    | nil => exact fun _ _ => rfl
    | cons r registrations ih =>
      intro t ht
      have hr := ht r (List.mem_cons_self ..)
      have hsome : ¬ (t.namespaces.lookup (t.registrations r).inNamespace).isNone = true := by
        rw [Option.isNone_iff_eq_none]
        intro hnone
        have hr : (t.namespaces.lookup (t.registrations r).inNamespace).isSome = true := hr
        rw [hnone] at hr
        cases hr
      unfold takeOverAll
      dsimp only
      rw [if_neg hsome]
      have hsame := takeOver_same t (t.registrations r).inNamespace (t.registrations r).owner
      refine ih _ fun j hj => ?_
      rw [(hsame.places j).1]
      exact hsame.spaces _ (ht j (List.mem_cons_of_mem _ hj))
  unfold ShareServer.commitReservations at herror ⊢
  split
  · rfl
  · rename_i hchecks
    have hstaged := (commitChecks_ok (firstError_ok hchecks)).1
    have hok := htake registrations s fun r hr => h r (hstaged r hr)
    rw [hchecks] at herror
    split
    · rename_i e' t hcase
      rw [hcase] at hok
      cases hok
    · rename_i t hcase
      rw [hcase] at herror
      cases herror

/-! ## Steps -/

/-- Only reserving and committing make a registration live. -/
theorem step_live {event : Event} (henters : event.enters = false)
    (hstep : step s event = some s') {r : Nat} (hr : s'.Live r) : s.Live r := by
  by_cases htouches : event.touchesTables = true
  swap
  · exact ((step_same (Bool.eq_false_iff.mpr htouches) hstep).live r).mp hr
  have hexpire : ∀ (l : List Nat) (t : ShareServer), (l.foldl expire t).Live r → t.Live r :=
    fun l t ht => ((foldl_live expire_live l t r).mp ht).1
  cases event with
  | expireHolds name =>
    dsimp only [step] at hstep
    split at hstep
    · obtain rfl := Option.some.inj hstep
      unfold expireHolds at hr
      split at hr
      · exact hr
      · split at hr
        · rename_i ns _ _
          refine hexpire (s.expired ns) s ?_
          rcases endHold_cases ((s.expired ns).foldl expire s) name with
            hsame | ⟨t, ns', hsame, -, -, -, -, -, heq⟩
          · exact (hsame.live r).mp hr
          · rw [heq] at hr
            exact (hsame.live r).mp hr
        · exact hr
    · cases hstep
  | closeNamespace name owner =>
    dsimp only [step] at hstep
    split at hstep
    · obtain rfl := Option.some.inj hstep
      unfold closeNamespace at hr
      split at hr
      · exact hr
      · split at hr
        · exact hr
        · split at hr
          · exact hr
          · exact hexpire _ _ (hexpire _ _ hr)
    · cases hstep
  | releaseNamespace name owner =>
    dsimp only [step] at hstep
    split at hstep
    · cases hstep
    · obtain rfl := Option.some.inj hstep
      unfold releaseNamespace at hr
      split at hr
      · exact hr
      · exact hr
  | unregister i closeNamespace =>
    dsimp only [step] at hstep
    split at hstep
    · obtain rfl := Option.some.inj hstep
      exact hr
    · obtain rfl := Option.some.inj hstep
      exact ((removeRegistration_live s i r).mp hr).1
  | removeNext task =>
    dsimp only [step] at hstep
    split at hstep
    · cases hstep
    · obtain rfl := Option.some.inj hstep
      exact ((removeRegistration_live s _ r).mp hr).1
    · obtain rfl := Option.some.inj hstep
      change (s.finishUnregister _).Live r at hr
      unfold finishUnregister at hr
      dsimp only at hr
      split at hr
      · exact hr
      · exact hr
  | reserve name spec owner replaces staged => cases henters
  | commitReservations registrations => cases henters
  | _ => cases htouches

/-- The wrong turns of the code are not taken: an unstaged reservation yields to nothing but the held
registration of its own URL, and no namespace is dropped in which a registration or a reservation is
left. A batch belongs to one Context. -/
structure Lawful (s : ShareServer) (event : Event) : Prop where
  tables : s.KeepsTables (fun _ => False) event
  claims : s.KeepsClaims event
  batch : ∀ registrations, event = .commitReservations registrations → s.OneOwner registrations

theorem Lawful.step_owners {event : Event} (hlawful : s.Lawful event) (hs : s.Sane)
    (hi : s.Indexed (fun _ => False) fun _ => False) (hstep : step s event = some s') :
    HandsOver s s' ∧ PublishesOwn s s' := by
  by_cases henters : event.enters = true
  swap
  · have henters := Bool.eq_false_iff.mpr henters
    exact ⟨(step_sameOwners henters hstep).handsOver,
      fun r hnot hr => absurd (step_live henters hstep hr) hnot⟩
  have hi' := (hi.step hs hlawful.tables hstep).1
  cases event with
  | reserve name spec owner replaces staged =>
    dsimp only [step] at hstep
    split at hstep
    · rename_i t hres
      obtain rfl := Option.some.inj hstep
      exact ⟨reserve_handsOver hres, reserve_publishesOwn hi' hres⟩
    · obtain rfl := Option.some.inj hstep
      exact ⟨(SameOwners.of_eq rfl).handsOver, fun r hnot hr => absurd hr hnot⟩
  | commitReservations registrations =>
    obtain rfl := Option.some.inj hstep
    exact commit_owners hs hi (hlawful.batch registrations rfl)
  | _ => cases henters

/-! ## Runs -/

/-- The registry is in order: a URL belongs to one live registration, which is the one it is dispatched
to, the tables describe the live registrations, and a namespace is there as long as anything in it. -/
structure Registered (s : ShareServer) : Prop where
  oneUrl : ∀ i j, s.Live i → s.Live j → (s.place i).route = (s.place j).route → i = j
  found : ∀ r, s.Live r → s.dispatch (s.place r).route = some r
  top : Index.Describes (fun k => s.topRecords.lookup k) (fun r => (s.place r).topKey) s.Live
  record : Index.Describes (fun k => s.records.lookup k) (fun r => (s.place r).recordKey) s.Live
  table : Index.Describes (fun k => s.recordOf k.1 k.2) (fun r => (s.place r).tableKey) s.Live
  spaces : ∀ r, s.Live r ∨ r ∈ s.stagedReservations →
    (s.namespaces.lookup (s.place r).inNamespace).isSome = true

theorem Indexed.dispatch (h : s.Indexed spare lost) {r : Nat} (hr : s.Live r) (hspare : ¬ spare r) :
    s.dispatch (s.place r).route = some r := by
  have hrouted := (s.place r).routed
  unfold ShareServer.dispatch
  cases htop : (s.place r).spec.toplevel with
  | true =>
    obtain ⟨key, hpath, hroute, hreserved⟩ := routeFor_toplevel hrouted htop
    have hfind : s.topRecords.lookup [key] = some r := by
      refine h.top.complete hr hspare ?_
      unfold Reservation.topKey
      rw [if_pos htop, hpath]
    rw [hroute, if_neg (by simpa using hreserved), hfind]
  | false =>
    obtain ⟨first, rest, hpath, hroute, hreserved⟩ := routeFor_inNamespace hrouted htop
    have hfind : s.records.lookup ((s.place r).inNamespace, first :: rest) = some r := by
      refine h.record.complete hr hspare ?_
      unfold Reservation.recordKey
      rw [if_neg (by simp [htop]), hpath]
    -- a top-level URL has one segment
    have hnone : s.topRecords.lookup ((s.place r).inNamespace :: first :: rest) = none := by
      cases hlookup : s.topRecords.lookup ((s.place r).inNamespace :: first :: rest) with
      | none => rfl
      | some other =>
        have hkey := (h.top.sound hlookup).2
        unfold Reservation.topKey at hkey
        split at hkey
        · rename_i hother
          obtain ⟨key, hpath', -, -⟩ := routeFor_toplevel (s.place other).routed hother
          rw [hpath'] at hkey
          cases hkey
        · cases hkey
    rw [hroute, if_neg (by simp), hnone]
    dsimp only
    rw [if_neg (by simpa using fun hmem hrest => hreserved hrest hmem)]
    exact hfind

theorem registered_of (hi : s.Indexed (fun _ => False) fun _ => False) (hc : s.Claimed) :
    s.Registered where
  oneUrl _ _ hr hr' heq := hi.route_unique hr hr' not_false not_false heq
  found _ hr := hi.dispatch hr not_false
  top := hi.top
  record := hi.record
  table := hi.table
  spaces r hr := hr.elim (fun hlive => hi.space hlive) (hc r)

theorem initial_indexed : initial.Indexed spare lost := by
  have hnone : ∀ r, ¬ initial.Live r := fun r hr => by cases hr.1
  have hcovers : ∀ {κ : Type} (key : Nat → Option κ) {find : κ → Option Nat}, (∀ k, find k = none) →
      Index.Covers find key initial.Live spare ∧ Index.Covers find key initial.Live lost := by
    intro κ key find hfind
    have hsound : ∀ {k i}, find k = some i → initial.Live i ∧ key i = some k := by
      intro k i hf
      rw [hfind] at hf
      cases hf
    exact ⟨⟨hsound, fun hr => absurd hr (hnone _)⟩, ⟨hsound, fun hr => absurd hr (hnone _)⟩⟩
  exact ⟨(hcovers _ fun _ => rfl).1, (hcovers _ fun _ => rfl).1, (hcovers _ fun _ => rfl).2⟩

theorem initial_sane : initial.Sane := ⟨fun _ _ => rfl, fun _ hr => by cases hr⟩

/-- Every run of lawful steps keeps the registry in order. -/
theorem reachable_registered (h : Transition.Reachable step initial Lawful s) :
    s.Registered ∧
      (∀ event s', s.Lawful event → step s event = some s' → HandsOver s s' ∧ PublishesOwn s s') ∧
      ∀ registrations e, (s.commitReservations registrations).1 = .error e →
        (s.commitReservations registrations).2 = s := by
  have hall : (s.Indexed (fun _ => False) fun _ => False) ∧ s.Sane ∧ s.Claimed := by
    refine h.invariant
      (I := fun s => (s.Indexed (fun _ => False) fun _ => False) ∧ s.Sane ∧ s.Claimed) ?_ ?_
    · exact ⟨initial_indexed, initial_sane, fun r hr => by cases hr⟩
    · rintro s next event ⟨hi, hs, hc⟩ hlawful hstep
      obtain ⟨hi', hs'⟩ := hi.step hs hlawful.tables hstep
      exact ⟨hi', hs', hc.step hs hlawful.claims hstep⟩
  obtain ⟨hi, hs, hc⟩ := hall
  exact ⟨registered_of hi hc, fun event s' hlawful hstep => hlawful.step_owners hs hi hstep,
    fun registrations e herror => hc.commit_error herror⟩

/-! ## Two runs -/

/-- The conditions of `Lawful` are met at once. -/
def Plain (s : ShareServer) (event : Event) : Prop :=
  (match event with
    | .reserve name spec _ _ false => s.current name spec = none ∧ s.recordOf name spec.path = none
    | .expireHolds _ => s.stagedReservations = []
    | .closeNamespace .. => s.stagedReservations = []
    | .commitReservations registrations => registrations.length ≤ 1
    | _ => True) ∧
  s.dropsBlindly event = none

instance (s : ShareServer) (event : Event) : Decidable (s.Plain event) := by
  unfold Plain
  have hfirst : Decidable (match event with
    | .reserve name spec _ _ false => s.current name spec = none ∧ s.recordOf name spec.path = none
    | .expireHolds _ => s.stagedReservations = []
    | .closeNamespace .. => s.stagedReservations = []
    | .commitReservations registrations => registrations.length ≤ 1
    | _ => True) := by
    split <;> infer_instance
  infer_instance

theorem Plain.lawful {event : Event} (h : s.Plain event) : s.Lawful event := by
  obtain ⟨hfirst, hdrops⟩ := h
  refine ⟨⟨?_, fun name hname => ?_⟩, ⟨?_, fun name hname => ?_⟩, ?_⟩
  · split
    · rename_i name spec owner replaces
      intro _
      dsimp only at hfirst
      refine ⟨fun old hold => ?_, fun old hold => ?_⟩
      · rw [hfirst.1] at hold
        cases hold
      · rw [hfirst.2] at hold
        cases hold
    · trivial
  · rw [hdrops] at hname
    cases hname
  · split
    · intro _ r hr
      dsimp only at hfirst
      rw [hfirst] at hr
      cases hr
    · intro _ r hr
      dsimp only at hfirst
      rw [hfirst] at hr
      cases hr
    · trivial
  · rw [hdrops] at hname
    cases hname
  · rintro registrations rfl r hr r' hr' -
    dsimp only at hfirst
    match registrations, hfirst, hr, hr' with
    | [_], _, hr, hr' => rw [List.mem_singleton.mp hr, List.mem_singleton.mp hr']

/-- A Context shares a cell and closes, and another one re-attaches to its URL with a staged
reservation. -/
def reattachOnce : List Event :=
  [.reserve "ctx" { path := ["a"] } (some (.context 0)) [] false, .start, .activate 0,
    .deliver 0 1 (some ⟨5⟩) none, .beginCloseNamespace "ctx" (.context 0),
    .holdNamespace "ctx" (.context 0) 10, .tick 3,
    .reserve "ctx" { path := ["a"] } (some (.context 1)) [] true, .commitReservations [1],
    .activate 1, .completeReattach 1, .expireHolds "ctx"]

theorem reattachOnce_runs : (Transition.run step reattachOnce initial).isSome = true := by decide

theorem reachable_registered_reattachOnce :
    ((Transition.run step reattachOnce initial).get reattachOnce_runs).Registered :=
  (reachable_registered ((Transition.Reachable.of_run .start (by decide) reattachOnce_runs).mono
    fun _ _ (h : Plain _ _) => h.lawful)).1

/-- An unstaged reservation takes the share key of a held registration that has another URL. -/
def takeShareKey : List Event :=
  [.reserve "ctx" { path := ["a"] } (some (.context 0)) [] false, .start, .activate 0,
    .holdNamespace "ctx" (.context 0) 10,
    .reserve "ctx" { path := ["a"], toplevel := true } (some (.context 1)) [] false, .activate 1]

theorem takeShareKey_runs : (Transition.run step takeShareKey initial).isSome = true := by decide

theorem not_reachable_registered :
    ¬ ∀ s, Transition.Reachable step initial (fun _ _ => True) s → s.Registered := by
  intro h
  have htable := (h _ (Transition.Reachable.of_run .start (by decide) takeShareKey_runs)).table
  have hfind := htable.complete (i := 0) (k := ("ctx", ["a"])) ⟨by decide, by decide⟩ not_false
    (by decide)
  exact absurd hfind (by decide)

end ShareServer

end SeamlessWorkflow
