import SeamlessWorkflow.Proofs.ShareWaits

/-!
# PUTs that wait are released

What an event of the server has to take care of so that no PUT keeps waiting for a registration that is
no longer suspended.
-/

namespace SeamlessWorkflow

namespace ShareServer

variable {s s' : ShareServer} {spare lost : Nat → Prop} {r f : Nat}

/-! ## Dropping several -/

theorem removeRegistration_cases (s : ShareServer) (n : Nat) :
    (s.removeRegistration n).registrations = s.registrations ∨
      (s.removeRegistration n).registrations = Function.update s.registrations n
        { s.registrations n with closed := true, active := false } := by
  unfold removeRegistration
  dsimp only
  split
  · exact Or.inl rfl
  · split
    · exact Or.inr rfl
    · exact Or.inr rfl

/-- A removal changes one registration. -/
theorem removeRegistration_of_ne (s : ShareServer) {n i : Nat} (hi : i ≠ n) :
    (s.removeRegistration n).registrations i = s.registrations i := by
  rcases removeRegistration_cases s n with h | h
  · rw [h]
  · rw [h, Function.update_of_ne hi]

/-- What a removal leaves alone. -/
theorem removeRegistration_kept (s : ShareServer) (n i : Nat) :
    ((s.removeRegistration n).registrations i).reattachedFrom = (s.registrations i).reattachedFrom ∧
      ((s.removeRegistration n).registrations i).staged = (s.registrations i).staged := by
  rcases removeRegistration_cases s n with h | h
  · rw [h]
    exact ⟨rfl, rfl⟩
  · rw [h, Function.update_apply]
    split
    · rename_i hi
      rw [hi]
      exact ⟨rfl, rfl⟩
    · exact ⟨rfl, rfl⟩

theorem expire_kept (s : ShareServer) (n i : Nat) :
    ((s.expire n).registrations i).reattachedFrom = (s.registrations i).reattachedFrom ∧
      ((s.expire n).registrations i).staged = (s.registrations i).staged := by
  have hcalm := Calm.complete s (s.registrations n).reattachFuture none
  have hsame := complete_same s (s.registrations n).reattachFuture none
  obtain ⟨hpred, hstaged⟩ := removeRegistration_kept
    (s.complete (s.registrations n).reattachFuture none) n i
  exact ⟨hpred.trans (hcalm.predecessor i), hstaged.trans (hsame.places i).2.1⟩

theorem expire_pending (s : ShareServer) (n : Nat) {g : Nat}
    (hp : (s.expire n).isPending g = true) : s.isPending g = true := by
  refine (Calm.complete s (s.registrations n).reattachFuture none).pending g ?_
  unfold isPending at hp ⊢
  unfold expire at hp
  rwa [removeRegistration_futures] at hp

theorem foldl_expire_pending (l : List Nat) : ∀ {s : ShareServer} {g : Nat},
    (l.foldl expire s).isPending g = true → s.isPending g = true := by
  induction l with
  | nil => exact fun h => h
  | cons n l ih => exact fun h => expire_pending _ n (ih h)

theorem foldl_expire_kept (l : List Nat) : ∀ (s : ShareServer) (i : Nat),
    ((l.foldl expire s).registrations i).reattachedFrom = (s.registrations i).reattachedFrom ∧
      ((l.foldl expire s).registrations i).staged = (s.registrations i).staged := by
  induction l with
  | nil => exact fun s i => ⟨rfl, rfl⟩
  | cons n l ih =>
    intro s i
    obtain ⟨hpred, hstaged⟩ := ih (s.expire n) i
    exact ⟨hpred.trans (expire_kept s n i).1, hstaged.trans (expire_kept s n i).2⟩

theorem Supported.expire (h : s.Supported r) {n : Nat} (hne : n ≠ r)
    (hpred : (s.registrations n).reattachedFrom ≠ some r) : (s.expire n).Supported r := by
  have hcalm := Calm.complete s (s.registrations n).reattachFuture none
  obtain ⟨m, hm, hmr⟩ := h
  have hmn : m ≠ n := by
    rintro rfl
    exact hmr.elim hne hpred
  refine ⟨m, ?_, ?_⟩
  · have hm := hcalm.holding m hm
    unfold Holding at hm ⊢
    unfold ShareServer.expire
    rw [removeRegistration_of_ne _ hmn]
    exact hm
  · rw [(expire_kept s n m).1]
    exact hmr

namespace Awaits

/-- Several registrations expire, none of which re-attaches to the one that is waited for. -/
theorem foldl_expire (l : List Nat) : ∀ {s : ShareServer}, s.Awaits r f →
    (s.isPending f = true → ∀ n ∈ l, n ≠ r → (s.registrations n).reattachedFrom ≠ some r ∧
      ((s.registrations n).staged = true → (s.place r).inNamespace = (s.place n).inNamespace →
        s.Supported r)) →
    (l.foldl ShareServer.expire s).Awaits r f ∧
      ((l.foldl ShareServer.expire s).isPending f = true → r ∉ l ∧
        (s.Supported r → (l.foldl ShareServer.expire s).Supported r)) := by
  induction l with
  | nil => exact fun h _ => ⟨h, fun _ => ⟨by simp, id⟩⟩
  | cons n l ih =>
    intro s h hl
    have hfirst := h.expire fun hp _ => hl hp n (List.mem_cons_self ..)
    -- as long as the future is pending, it is not this one that is waited for
    have hother : (s.expire n).isPending f = true → n ≠ r := by
      rintro hp rfl
      rw [h.expire_self] at hp
      cases hp
    have hsupported : (s.expire n).isPending f = true → s.Supported r → (s.expire n).Supported r := by
      intro hp hs
      have hne := hother hp
      exact hs.expire hne (hl (expire_pending s n hp) n (List.mem_cons_self ..) hne).1
    obtain ⟨hrest, hend⟩ := ih hfirst fun hp j hj hjr => by
      obtain ⟨hpred, hstaged⟩ := hl (expire_pending s n hp) j (List.mem_cons_of_mem _ hj) hjr
      rw [(expire_kept s n j).1, (expire_kept s n j).2, expire_place]
      exact ⟨hpred, fun hs hname => hsupported hp (hstaged hs hname)⟩
    refine ⟨hrest, fun hp => ?_⟩
    obtain ⟨hnot, hs⟩ := hend hp
    have hp' : (s.expire n).isPending f = true := foldl_expire_pending l hp
    refine ⟨?_, fun hs' => hs (hsupported hp' hs')⟩
    rw [List.mem_cons, not_or]
    exact ⟨Ne.symm (hother hp'), hnot⟩

/-- Several registrations are removed without which the wait goes on. -/
theorem foldl_removeRegistration (l : List Nat) : ∀ {s : ShareServer}, s.Awaits r f →
    (∀ n ∈ l, (s.registrations n).staged = false) →
    (s.isPending f = true → s.SupportedWithout l r ∨
      r ∉ l ∧ ∀ n ∈ l, (s.registrations n).reattachedFrom ≠ some r) →
    (l.foldl ShareServer.removeRegistration s).Awaits r f := by
  induction l with
  | nil => exact fun h _ _ => h
  | cons n l ih =>
    intro s h hstaged hl
    have hpending : (s.removeRegistration n).isPending f = s.isPending f := by
      unfold isPending
      rw [removeRegistration_futures]
    have hn := hstaged n (List.mem_cons_self ..)
    refine ih ?_ (fun j hj => ?_) fun hp => ?_
    · refine h.removeRegistration_of fun hp hopen => ?_
      have hone : ∀ m : Nat, m ∉ n :: l → m ∉ [n] := fun m hm hm' =>
        hm (List.mem_cons.mpr (Or.inl (List.mem_singleton.mp hm')))
      rcases hl hp with ⟨m, hm, hmn, hmr⟩ | ⟨hr, hpred⟩
      · exact Or.inl ⟨m, hm, hone m hmn, hmr⟩
      · have hne : n ≠ r := fun hnr => hr (hnr ▸ List.mem_cons_self ..)
        rcases (h hp).2 with ⟨m, hm, hmr⟩ | hc
        · refine Or.inl ⟨m, hm, fun hmn => ?_, hmr⟩
          rw [List.mem_singleton.mp hmn] at hmr
          exact hmr.elim hne (hpred n (List.mem_cons_self ..))
        · refine Or.inr ⟨hne, hc, fun hs => ?_⟩
          rw [hn] at hs
          cases hs
    · rw [(removeRegistration_kept s n j).2]
      exact hstaged j (List.mem_cons_of_mem _ hj)
    · rw [hpending] at hp
      rcases hl hp with ⟨m, hm, hmn, hmr⟩ | ⟨hr, hpred⟩
      · obtain ⟨hne, hnot⟩ := not_or.mp fun hor => hmn (List.mem_cons.mpr hor)
        refine Or.inl ⟨m, ?_, hnot, ?_⟩
        · unfold Holding
          rw [removeRegistration_of_ne _ hne]
          exact hm
        · rw [(removeRegistration_kept s n m).1]
          exact hmr
      · refine Or.inr ⟨fun hmem => hr (List.mem_cons_of_mem _ hmem), fun j hj => ?_⟩
        rw [(removeRegistration_kept s n j).1]
        exact hpred j (List.mem_cons_of_mem _ hj)

/-! ## Namespaces -/

theorem takeOver (h : s.Awaits r f) {name : String} {owner : Owner}
    (hr : s.isPending f = true → s.canTakeOver name (some owner) = true →
      (s.place r).inNamespace = name → s.Supported r) : (s.takeOver name owner).Awaits r f := by
  unfold ShareServer.takeOver
  split
  · rename_i hcan
    intro hp
    have hp : s.isPending f = true := hp
    obtain ⟨hf, hsuspended⟩ := h hp
    refine ⟨hf, ?_⟩
    by_cases hname : (s.place r).inNamespace = name
    · exact Or.inl (hr hp hcan hname)
    · refine hsuspended.imp id fun hc => ⟨hc.1, ?_⟩
      show ((Index.adjust s.namespaces name _).lookup (s.place r).inNamespace).any _ = true
      rw [Index.lookup_adjust, if_neg hname]
      exact hc.2
  · exact h

theorem holdUntil_holding {deadline : Nat} {n : Nat} (s : ShareServer)
    (hn : (s.registrations n).closed = false) : (holdUntil deadline s n).Holding n := by
  refine (Calm.renewFuture ..).holding n ⟨?_, Or.inl ?_⟩
  · rw [modify_registrations, if_pos rfl]
    exact hn
  · rw [modify_registrations, if_pos rfl]

theorem holdNamespace (h : s.Awaits r f) {name : String} {owner : Owner} (timeout : Nat)
    (hr : s.isPending f = true → ∀ ns, s.namespaces.lookup name = some ns → ns.owner = owner →
      (s.place r).inNamespace = name → s.Supported r ∨ r ∈ s.owned ns) :
    (s.holdNamespace name owner timeout).Awaits r f := by
  unfold ShareServer.holdNamespace
  split
  · exact h
  · rename_i ns hns
    split
    · exact h
    · rename_i howner
      dsimp only
      have hfold := fun t => Calm.foldl (Calm.holdUntil (s.now + timeout)) (s.owned ns) t
      -- what is no longer in a closing namespace is held now
      have hheld : ∀ (l : List Nat) (t : ShareServer), r ∈ l → (t.registrations r).closed = false →
          (l.foldl (holdUntil (s.now + timeout)) t).Holding r := by
        intro l
        induction l with
        | nil => exact fun t hr _ => by cases hr
        | cons n l ih =>
          intro t hr hopen
          rcases List.mem_cons.mp hr with rfl | hr
          · exact (Calm.foldl (Calm.holdUntil _) l _).holding _ (holdUntil_holding t hopen)
          · refine ih _ hr ?_
            rw [(Calm.holdUntil _ t n).closed]
            exact hopen
      have hcalm := hfold (s.modifyNamespace name fun ns =>
        { ns with
          closing := false, ownerActive := false, holdUntil := some (s.now + timeout)
          holdTask := true })
      intro hp
      have hp' : s.isPending f = true := hcalm.pending f hp
      obtain ⟨hf, hsuspended⟩ := h hp'
      refine ⟨hcalm.future r f hp hf, ?_⟩
      by_cases hname : (s.place r).inNamespace = name
      · rcases hr hp' ns hns (not_not.mp howner) hname with hs | hmem
        · exact Or.inl (Supported.calm (s := s.modifyNamespace name _) hs hcalm)
        · have hopen := (List.mem_filter.mp hmem).2
          rw [Bool.and_eq_true] at hopen
          have hopen : (s.registrations r).closed = false := by simpa using hopen.2
          exact Or.inl ⟨r, hheld _ _ hmem hopen, Or.inl rfl⟩
      · rcases hsuspended with hs | hc
        · exact Or.inl (Supported.calm (s := s.modifyNamespace name _) hs hcalm)
        · refine Or.inr ⟨(hcalm.closed r).trans hc.1, ?_⟩
          rw [hcalm.place]
          refine hcalm.closing _ ?_
          show ((Index.adjust s.namespaces name _).lookup (s.place r).inNamespace).any _ = true
          rw [Index.lookup_adjust, if_neg hname]
          exact hc.2

/-- The end of a hold changes a wait only if it drops the namespace. -/
theorem endHold (h : s.Awaits r f) {name : String}
    (hr : s.isPending f = true → ∀ ns, s.namespaces.lookup name = some ns → ns.ownerActive = false →
      ns.holdUntil.filter (s.now < ·) = none → ns.values.isEmpty = true →
        (s.place r).inNamespace = name → s.Supported r) : (s.endHold name).Awaits r f := by
  have hfirst : Calm s (s.modifyNamespace name fun ns =>
      { ns with holdUntil := ns.holdUntil.filter (s.now < ·) }) := .adjust fun _ hc => hc
  unfold ShareServer.endHold
  dsimp only
  split
  · exact h.calm hfirst
  · rename_i ns' hns'
    have hlookup : (Index.adjust s.namespaces name fun ns =>
        { ns with holdUntil := ns.holdUntil.filter (s.now < ·) }).lookup name = some ns' := hns'
    rw [Index.lookup_adjust, if_pos rfl] at hlookup
    obtain ⟨ns, hns, rfl⟩ := Option.map_eq_some_iff.mp hlookup
    split
    · rename_i hrelease
      rw [Bool.and_eq_true, Bool.and_eq_true] at hrelease
      refine (h.calm hfirst).eraseNamespace fun hp hname => ?_
      exact hr hp ns hns (by simpa using hrelease.1.1) (Option.isNone_iff_eq_none.mp hrelease.1.2)
        hrelease.2 hname
    · split
      · exact h.calm hfirst
      · exact (h.calm hfirst).calm (.adjust fun _ hc => hc)

/-- Registrations that have been published are not staged. -/
theorem values_staged (hs : s.Sound) {name : String} {ns : ShareNamespace}
    (hns : s.namespaces.lookup name = some ns) {n : Nat} (hn : n ∈ ns.values) :
    (s.registrations n).staged = false := by
  obtain ⟨path, hpath⟩ := mem_values.mp hn
  refine (hs.table.sound (k := (name, path)) ?_).1.2
  unfold recordOf
  dsimp only
  rw [hns, Option.bind_some]
  exact hpath

theorem expireHolds (h : s.Awaits r f) (hs : s.Sound) {name : String}
    (hr : s.isPending f = true → ∀ ns, s.namespaces.lookup name = some ns → ns.holdTask = true →
      (∀ n ∈ s.expired ns, n ≠ r → (s.registrations n).reattachedFrom ≠ some r) ∧
      (s.HoldIsOver name → (s.place r).inNamespace = name → s.Supported r ∨ r ∈ s.expired ns)) :
    (s.expireHolds name).Awaits r f := by
  unfold ShareServer.expireHolds
  split
  · exact h
  · rename_i ns hns
    split
    · rename_i htask
      obtain ⟨hrest, hend⟩ := h.foldl_expire (s.expired ns) fun hp n hn hne => by
        refine ⟨(hr hp ns hns htask).1 n hn hne, fun hstaged => ?_⟩
        rw [values_staged hs hns (List.mem_of_mem_filter hn)] at hstaged
        cases hstaged
      refine hrest.endHold fun hp ns' hns' hactive hhold hempty hname => ?_
      obtain ⟨hnot, hsupported⟩ := hend hp
      rw [foldl_place expire_place] at hname
      have hp' : s.isPending f = true := foldl_expire_pending _ hp
      have hover := holdIsOver_of_release hns htask hns' hactive hhold hempty
      rcases (hr hp' ns hns htask).2 hover hname with hsup | hmem
      · exact hsupported hsup
      · exact absurd hmem hnot
    · exact h

/-- Only published registrations re-attach. -/
theorem closeNamespace (h : s.Awaits r f) (hs : s.Sound) (hsane : s.Sane)
    (hadopted : ∀ n, (s.registrations n).staged = true → (s.registrations n).reattachedFrom = none)
    {name : String} {owner : Owner}
    (hr : s.isPending f = true → ∀ ns, s.namespaces.lookup name = some ns → s.ClosesNow name owner →
      (∀ n ∈ ns.values, n ≠ r → (s.registrations n).reattachedFrom ≠ some r) ∧
      ((s.place r).inNamespace = name → s.Supported r ∨ r ∈ ns.values)) :
    (s.closeNamespace name owner).Awaits r f := by
  unfold ShareServer.closeNamespace
  split
  · exact h
  · rename_i ns hns
    split
    · exact h
    · rename_i howner
      split
      · exact h
      · rename_i hactive
        dsimp only
        have hcloses := closesNow_of hns (not_not.mp howner) hactive
        obtain ⟨hrest, hend⟩ := h.foldl_expire ns.values fun hp n hn hne => by
          refine ⟨(hr hp ns hns hcloses).1 n hn hne, fun hstaged => ?_⟩
          rw [values_staged hs hns hn] at hstaged
          cases hstaged
        have hplace := foldl_place expire_place ns.values s
        have hkept := foldl_expire_kept ns.values s
        have hpending : ∀ {g}, (ns.values.foldl ShareServer.expire s).isPending g = true →
            s.isPending g = true := foldl_expire_pending _
        have hsane' := Sane.foldl (fun s r h => h.expire r) ns.values s hsane
        generalize ns.values.foldl ShareServer.expire s = t at hrest hend hplace hkept hpending hsane'
        -- the wait goes on in the namespace only if it is supported
        have hsupported : t.isPending f = true → (s.place r).inNamespace = name → t.Supported r := by
          intro hp hname
          obtain ⟨hnot, hsup⟩ := hend hp
          rcases (hr (hpending hp) ns hns hcloses).2 hname with hs' | hmem
          · exact hsup hs'
          · exact absurd hmem hnot
        obtain ⟨hrest', hend'⟩ := hrest.foldl_expire (t.stagedReservations.filter fun n =>
            (t.registrations n).inNamespace == name && (t.registrations n).owner == owner)
          fun hp n hn _ => by
            obtain ⟨hmem, hnamed⟩ := List.mem_filter.mp hn
            rw [Bool.and_eq_true] at hnamed
            have hstaged := (hsane'.staged n hmem).1
            refine ⟨?_, fun _ hname => ?_⟩
            · rw [(hkept n).2] at hstaged
              rw [(hkept n).1, hadopted n hstaged]
              exact (Option.some_ne_none r).symm
            · rw [hplace] at hname
              refine hsupported hp (hname.trans ?_)
              rw [← hplace]
              exact beq_iff_eq.mp hnamed.1
        refine hrest'.eraseNamespace fun hp hname => ?_
        rw [foldl_place expire_place, hplace] at hname
        exact (hend' hp).2 (hsupported (foldl_expire_pending _ hp) hname)

/-! ## Reserving -/

theorem allocate (h : s.Awaits r f) (hs : s.Sane) {reg : ShareRegistration}
    (hr : s.isPending f = true → r ≠ s.registrationCount) : (s.allocate reg).Awaits r f := by
  have hregs : ∀ {i}, i ≠ s.registrationCount →
      (s.allocate reg).registrations i = s.registrations i := fun hi => by
    rw [allocate_registrations, if_neg hi]
  intro hp
  have hp : s.isPending f = true := hp
  obtain ⟨hf, hsuspended⟩ := h hp
  refine ⟨?_, ?_⟩
  · rw [hregs (hr hp)]
    exact hf
  · rcases hsuspended with ⟨m, hm, hmr⟩ | hc
    · have hne : m ≠ s.registrationCount := by
        rintro rfl
        have hunused := hs.unused _ (Nat.le_refl _)
        rw [hm.1] at hunused
        cases hunused
      refine Or.inl ⟨m, ?_, ?_⟩
      · unfold Holding
        rw [hregs hne]
        exact hm
      · rw [hregs hne]
        exact hmr
    · refine Or.inr ?_
      unfold InClosing ShareServer.place
      rw [hregs (hr hp)]
      exact hc

/-- A new registration re-attaches to a held one; the wait for the latter depends on it from now on. -/
theorem adopt (h : s.Awaits r f) {n held : Nat}
    (hpred : (s.registrations n).reattachedFrom = none) :
    (s.adoptHeldRegistration n held).Awaits r f := by
  have hregs := modify_registrations s n (i := r) fun reg =>
    { reg with
      checksum := (s.registrations held).checksum
      marker := max reg.marker (s.registrations held).marker
      held := true
      reattaching := true
      reattachedFrom := some held }
  intro hp
  have hp : s.isPending f = true := hp
  obtain ⟨hf, hsuspended⟩ := h hp
  unfold adoptHeldRegistration
  refine ⟨?_, ?_⟩
  · rw [hregs]
    split
    · rename_i hrn
      rw [← hrn]
      exact hf
    · exact hf
  · rcases hsuspended with ⟨m, hm, hmr⟩ | hc
    · refine Or.inl ⟨m, ⟨?_, ?_⟩, ?_⟩
      · rw [modify_registrations]
        split
        · rename_i hmn
          rw [← hmn]
          exact hm.1
        · exact hm.1
      · rw [modify_registrations]
        split
        · exact Or.inl rfl
        · exact hm.2
      · rw [modify_registrations]
        split
        · rename_i hmn
          rw [hmn, hpred] at hmr
          exact Or.inl (hmr.elim (fun hnr => hmn.trans hnr) fun hno => nomatch hno)
        · exact hmr
    · exact Or.inr (hc.modify ⟨rfl, rfl⟩)

end Awaits

theorem heldRegistrationFor_congr {name : String} {spec : ServedSpec} {route : Route}
    (hrec : s'.recordOf name spec.path = s.recordOf name spec.path)
    (hcur : s'.current name spec = s.current name spec)
    (hregs : ∀ j, s.recordOf name spec.path = some j ∨ s.current name spec = some j →
      (s'.registrations j).held = (s.registrations j).held ∧ s'.place j = s.place j) :
    s'.heldRegistrationFor name spec route = s.heldRegistrationFor name spec route := by
  have hfilter : ∀ found : Option Nat, (∀ j, found = some j →
      s.recordOf name spec.path = some j ∨ s.current name spec = some j) →
      (found.filter fun j => (s'.registrations j).held && (s'.registrations j).route == route) =
        found.filter fun j => (s.registrations j).held && (s.registrations j).route == route := by
    intro found hfound
    cases found with
    | none => rfl
    | some j =>
      obtain ⟨hheld, hplace⟩ := hregs j (hfound j rfl)
      have hroute : (s'.registrations j).route = (s.registrations j).route :=
        congrArg Reservation.route hplace
      rw [Option.filter_some, Option.filter_some, hheld, hroute]
  unfold heldRegistrationFor
  dsimp only
  rw [hrec, hcur, hfilter _ fun j hj => Or.inl hj, hfilter _ fun j hj => Or.inr hj]

theorem heldRegistrationFor_held {name : String} {spec : ServedSpec} {route : Route} {held : Nat}
    (h : s.heldRegistrationFor name spec route = some held) :
    (s.registrations held).held = true := by
  unfold heldRegistrationFor at h
  dsimp only at h
  rcases Option.or_eq_some_iff.mp h with hrec | ⟨-, hcur⟩
  · have hrejoins := (Option.filter_eq_some_iff.mp hrec).2
    rw [Bool.and_eq_true] at hrejoins
    exact hrejoins.1
  · have hrejoins := (Option.filter_eq_some_iff.mp hcur).2
    rw [Bool.and_eq_true] at hrejoins
    exact hrejoins.1

/-- A reservation takes over only a namespace that was there and can be taken over. -/
theorem reserve_canTakeOver {name : String} {spec : ServedSpec} {owner : Option Owner} {route : Route}
    {replaces : List Nat} {staged : Bool} {o : Owner}
    (hchecks : ∀ check ∈ s.reservationChecks name spec route owner replaces [], check.1 = false)
    (ho : o = (s.claimNamespace name owner staged).registrationOwner name owner)
    (hentries : SameEntries (s.claimNamespace name owner staged) s')
    (hcan : s'.canTakeOver name (some o) = true) : s.canTakeOver name owner = true := by
  obtain ⟨ns, hns, hne, hactive, deadline, hhold, hlt⟩ :=
    (canTakeOver_iff ..).mp (hentries.canTakeOver hcan)
  have hnow : (s.claimNamespace name owner staged).now = s.now := by
    unfold claimNamespace
    split <;> rfl
  rcases claimNamespace_lookup s name owner staged hns with hold | ⟨-, -, hnew⟩
  · cases owner with
    | none =>
      have hfirst := hchecks _
        (List.mem_append_left _ (List.mem_append_left _ (List.mem_cons_self ..)))
      dsimp only at hfirst
      rw [hold] at hfirst
      cases hfirst
    | some owner =>
      have ho : o = owner := ho
      rw [ho] at hne
      exact (canTakeOver_iff ..).mpr ⟨ns, hold, hne, hactive, deadline, hhold, hnow ▸ hlt⟩
  · exact absurd (hnew.trans ho.symm) hne

namespace Calm

theorem claimNamespace (s : ShareServer) (name : String) (owner : Option Owner) (staged : Bool) :
    Calm s (s.claimNamespace name owner staged) := by
  unfold ShareServer.claimNamespace
  split
  · exact of_eq rfl rfl rfl
  · rename_i hnone
    refine ⟨fun _ h => h, fun _ => rfl, fun _ => rfl, fun _ h => h, fun _ => rfl, fun _ _ _ h => h,
      fun n hn => ?_⟩
    have hne : n ≠ name := by
      rintro rfl
      refine hnone ?_
      cases hlookup : s.namespaces.lookup n with
      | none =>
        rw [hlookup] at hn
        cases hn
      | some ns => rfl
    dsimp only
    rw [AList.lookup_insert_ne hne]
    exact hn

theorem putRecord (s : ShareServer) (n : Nat) : Calm s (s.putRecord n) := by
  have hadjust : Calm s (s.modifyNamespace (s.registrations n).inNamespace fun ns =>
      { ns with records := ns.records.insert (s.registrations n).spec.path n }) :=
    adjust fun _ hc => hc
  exact hadjust.trans (of_eq rfl rfl rfl)

end Calm

/-- What supports a wait still does so when a held registration makes way for another one. -/
theorem Supported.adopt (h : s.Supported r) {n held : Nat} (hn : (s.registrations n).closed = false)
    (hne : held ≠ n) (hpred : (s.registrations n).reattachedFrom = none)
    (hheld : (s.registrations held).reattachedFrom ≠ some r) :
    (s.adoptHeldRegistration n held).SupportedWithout [held] r := by
  have hregs : ∀ i, i ≠ n → (s.adoptHeldRegistration n held).registrations i = s.registrations i := by
    intro i hi
    unfold adoptHeldRegistration
    rw [modify_registrations, if_neg hi]
  have hnew : (s.adoptHeldRegistration n held).Holding n ∧
      ((s.adoptHeldRegistration n held).registrations n).reattachedFrom = some held := by
    unfold Holding adoptHeldRegistration
    rw [modify_registrations, if_pos rfl]
    exact ⟨⟨hn, Or.inl rfl⟩, rfl⟩
  have hnmem : n ∉ [held] := fun hmem => hne (List.mem_singleton.mp hmem).symm
  obtain ⟨m, hm, hmr⟩ := h
  by_cases hmn : m = n
  · subst hmn
    rcases hmr with hmr | hmr
    · exact ⟨m, hnew.1, hnmem, Or.inl hmr⟩
    · rw [hpred] at hmr
      cases hmr
  · by_cases hmh : m = held
    · subst hmh
      rcases hmr with hmr | hmr
      · exact ⟨n, hnew.1, hnmem, Or.inr (hmr ▸ hnew.2)⟩
      · exact absurd hmr hheld
    · refine ⟨m, ?_, fun hmem => hmh (List.mem_singleton.mp hmem), ?_⟩
      · unfold Holding
        rw [hregs m hmn]
        exact hm
      · rw [hregs m hmn]
        exact hmr

theorem SupportedWithout.removeRegistration {n : Nat} (h : s.SupportedWithout [n] r) :
    (s.removeRegistration n).Supported r := by
  obtain ⟨m, hm, hmn, hmr⟩ := h
  have hne : m ≠ n := fun hmn' => hmn (List.mem_singleton.mpr hmn')
  refine ⟨m, ?_, ?_⟩
  · unfold Holding
    rw [removeRegistration_of_ne _ hne]
    exact hm
  · rw [removeRegistration_of_ne _ hne]
    exact hmr

theorem Awaits.placeUnstaged (h : s.Awaits r f) {n : Nat}
    (hn : (s.registrations n).closed = false) (hpred : (s.registrations n).reattachedFrom = none)
    (hfound : ∀ held, s.heldFor n = some held →
      held ≠ n ∧ (s.registrations held).staged = false)
    (hr : s.isPending f = true →
      (∀ held, s.heldFor n = some held → (s.registrations held).reattachedFrom ≠ some r) ∧
      ∀ u, SameEntries s u → u.canTakeOver (s.place n).inNamespace (some (s.place n).owner) = true →
        (s.place r).inNamespace = (s.place n).inNamespace → s.Supported r) :
    (s.placeUnstaged n).Awaits r f := by
  rw [placeUnstaged_heldFor]
  cases hheld : s.heldFor n with
  | none =>
    refine (h.takeOver fun hp hcan hrn => ?_).calm (.putRecord ..)
    exact (hr hp).2 s (.of_eq rfl rfl) hcan hrn
  | some held =>
    obtain ⟨hne, hstaged⟩ := hfound held hheld
    have hadopt : (s.adoptHeldRegistration n held).Awaits r f := h.adopt hpred
    have hsame := adoptHeldRegistration_same s n held
    have hsupported : s.isPending f = true → s.Supported r →
        (s.adoptHeldRegistration n held).SupportedWithout [held] r := fun hp hs =>
      hs.adopt hn hne hpred ((hr hp).1 held hheld)
    have hremoved : ((s.adoptHeldRegistration n held).removeRegistration held).Awaits r f := by
      refine hadopt.removeRegistration_of fun hp hopen => ?_
      have hp : s.isPending f = true := hp
      rcases (h hp).2 with hs | hc
      · exact Or.inl (hsupported hp hs)
      · by_cases hrh : held = r
        · -- the one that is removed is held
          subst hrh
          have hself : s.Supported held := by
            refine ⟨held, ⟨hc.1, Or.inl ?_⟩, Or.inl rfl⟩
            exact heldRegistrationFor_held hheld
          exact Or.inl (hsupported hp hself)
        · refine Or.inr ⟨hrh, ?_, fun hs => ?_⟩
          · unfold adoptHeldRegistration
            exact hc.modify ⟨rfl, rfl⟩
          · rw [(hsame.places held).2.1, hstaged] at hs
            cases hs
    refine (hremoved.takeOver fun hp hcan hrn => ?_).calm (.putRecord ..)
    have hp : s.isPending f = true := by
      unfold isPending at hp
      rw [removeRegistration_futures] at hp
      exact hp
    rw [removeRegistration_place, (hsame.places r).1] at hrn
    have hentries : SameEntries s ((s.adoptHeldRegistration n held).removeRegistration held) :=
      SameEntries.trans (.of_eq rfl rfl) (.removeRegistration ..)
    exact (hsupported hp ((hr hp).2 _ hentries hcan hrn)).removeRegistration

theorem Awaits.reserve (h : s.Awaits r f) (hs : s.Sound) (hsane : s.Sane) {name : String}
    {spec : ServedSpec} {owner : Option Owner} {replaces : List Nat} {staged : Bool}
    (hnew : s.isPending f = true → r ≠ s.registrationCount)
    (hr : staged = false → s.isPending f = true → ∀ route, routeFor name spec = .ok route →
      (∀ held, s.heldRegistrationFor name spec route = some held →
        (s.registrations held).reattachedFrom ≠ some r) ∧
      (s.canTakeOver name owner = true → (s.place r).inNamespace = name → s.Supported r))
    (hres : s.reserve name spec owner replaces staged = .ok s') : s'.Awaits r f := by
  obtain ⟨place, reg, hreg, hname, hspec, -, howner, hchecks, hs'⟩ := reserve_cases hres
  have hclaim := claimNamespace_same s name owner staged
  have hcalm := Calm.claimNamespace s name owner staged
  have hregs := claimNamespace_registrations s name owner staged
  have ht := h.calm hcalm
  have hts := hclaim.indexed hs
  have htsane := hclaim.sane hsane
  rw [← hclaim.count] at hs' hnew
  have hu : ((s.claimNamespace name owner staged).allocate reg).Awaits r f :=
    ht.allocate htsane fun hp => hnew (hcalm.pending f hp)
  cases hstaged : staged with
  | true =>
    rw [hstaged] at hs' hreg hu
    rw [hs', if_pos rfl]
    exact hu.calm (.of_eq rfl rfl rfl)
  | false =>
    have hcanTakeOver := fun (u : ShareServer) => @reserve_canTakeOver s u _ _ _ _ _ _ _ hchecks howner
    rw [hstaged] at hs' hreg hu hts htsane hclaim hcalm hregs hnew hcanTakeOver
    rw [hs', if_neg (by simp)]
    generalize s.claimNamespace name owner false = t at *
    have hold : ∀ {i}, i ≠ t.registrationCount →
        (t.allocate reg).registrations i = s.registrations i := fun hi => by
      rw [allocate_registrations, if_neg hi, hregs]
    have hself : (t.allocate reg).registrations t.registrationCount = reg := by
      rw [allocate_registrations, if_pos rfl]
    have hplace : (t.allocate reg).place t.registrationCount = place := by
      unfold ShareServer.place
      rw [hself, hreg]
    have hroute : routeFor name spec = .ok place.route := by
      rw [← hname, ← hspec]
      exact place.routed
    have hfresh : ∀ j, t.recordOf name spec.path = some j ∨ t.current name spec = some j →
        j ≠ t.registrationCount := by
      rintro j hj rfl
      exact htsane.not_live (hts.found_live hj)
    -- the held registration is the one that was there before
    have hheld : (t.allocate reg).heldFor t.registrationCount =
        s.heldRegistrationFor name spec place.route := by
      unfold heldFor
      rw [hplace, hname, hspec]
      refine heldRegistrationFor_congr (hclaim.tables _ _) (hclaim.current ..) fun j hj => ?_
      rw [← hclaim.tables, ← hclaim.current] at hj
      unfold ShareServer.place
      rw [hold (hfresh j hj)]
      exact ⟨rfl, rfl⟩
    have hfound : ∀ held, (t.allocate reg).heldFor t.registrationCount = some held →
        held ≠ t.registrationCount ∧ ((t.allocate reg).registrations held).staged = false := by
      intro held hh
      rw [hheld] at hh
      have hj := (heldRegistrationFor_found hh).1
      rw [← hclaim.tables, ← hclaim.current] at hj
      have hne := hfresh held hj
      rw [hold hne, ← hregs]
      exact ⟨hne, (hts.found_live hj).2⟩
    refine hu.placeUnstaged ?_ ?_ hfound fun hp => ?_
    · rw [hself, hreg]
    · rw [hself, hreg]
    · have hp' := hcalm.pending f hp
      obtain ⟨hpred, htake⟩ := hr hstaged hp' _ hroute
      refine ⟨fun held hh => ?_, fun u hu hcan hrn => ?_⟩
      · rw [hold (hfound held hh).1]
        exact hpred held (hheld ▸ hh)
      · rw [hplace, hname] at hcan hrn
        unfold ShareServer.place at hrn
        rw [hold (hnew hp')] at hrn
        obtain ⟨m, hm, hmr⟩ := htake (hcanTakeOver u hu hcan) hrn
        have hmne : m ≠ t.registrationCount := by
          rintro rfl
          have hunused := hsane.unused _ (Nat.le_of_eq hclaim.count.symm)
          rw [hm.1] at hunused
          cases hunused
        refine ⟨m, ?_, ?_⟩
        · unfold Holding
          rw [hold hmne]
          exact hm
        · rw [hold hmne]
          exact hmr

end ShareServer

end SeamlessWorkflow
