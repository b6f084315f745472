import SeamlessWorkflow.Proofs.ShareVersions

/-!
# The marker of a URL names a version

A registration that takes over a URL has to take over its version. One that is not adopted from a held
registration starts without a checksum, so it may only come where no value has been installed before.
-/

namespace SeamlessWorkflow

namespace ShareServer

variable {s s' s'' : ShareServer} {url : Route} {v : Version} {spare lost : Nat → Prop}

/-! ## Committing -/

theorem le_foldl_max {f : Nat → Nat} (l : List Nat) : ∀ m : Nat,
    m ≤ l.foldl (fun m j => max m (f j)) m ∧ ∀ j ∈ l, f j ≤ l.foldl (fun m j => max m (f j)) m := by
  induction l with
  | nil => exact fun m => ⟨Nat.le_refl _, fun j hj => by cases hj⟩
  | cons i l ih =>
    intro m
    obtain ⟨hle, hmem⟩ := ih (max m (f i))
    rw [List.foldl_cons]
    refine ⟨by omega, fun j hj => ?_⟩
    rcases List.mem_cons.mp hj with rfl | hj
    · omega
    · exact hmem j hj

/-- The held registration of the URL that a registration is made for. -/
def heldFor (s : ShareServer) (r : Nat) : Option Nat :=
  s.heldRegistrationFor (s.place r).inNamespace (s.place r).spec (s.place r).route

/-- A registration that adopts the held one at its URL, if there is one. -/
structure Adopts (s : ShareServer) (r : Nat) (reg : ShareRegistration) : Prop where
  place : reg.toReservation = s.place r
  closed : reg.closed = (s.registrations r).closed
  marker : (s.registrations r).marker ≤ reg.marker
  future : reg.reattachFuture = (s.registrations r).reattachFuture
  adopted : ∀ held, s.heldFor r = some held →
    reg.checksum = (s.registrations held).checksum ∧ (s.registrations held).marker ≤ reg.marker ∧
      reg.held = true ∧ reg.reattachedFrom = some held
  unheld : s.heldFor r = none →
    reg.checksum = (s.registrations r).checksum ∧ reg.held = (s.registrations r).held ∧
      reg.reattaching = (s.registrations r).reattaching ∧
      reg.reattachedFrom = (s.registrations r).reattachedFrom

theorem adoptIfHeld_eq (s : ShareServer) (r : Nat) : s.adoptIfHeld r =
    match s.heldFor r with
    | none => s
    | some held => s.adoptHeldRegistration r held := rfl

theorem placeUnstaged_heldFor (s : ShareServer) (r : Nat) : s.placeUnstaged r =
    ((match s.heldFor r with
      | none => s
      | some held => (s.adoptHeldRegistration r held).removeRegistration held).takeOver
        (s.place r).inNamespace (s.place r).owner).putRecord r := rfl

theorem adoptIfHeld_adopts (s : ShareServer) (r : Nat) : ∃ reg : ShareRegistration, s.Adopts r reg ∧
    (s.adoptIfHeld r).registrations = Function.update s.registrations r reg ∧
    (s.adoptIfHeld r).markerFloors = s.markerFloors := by
  rw [adoptIfHeld_eq]
  cases hheld : s.heldFor r with
  | none =>
    refine ⟨s.registrations r, ⟨rfl, rfl, Nat.le_refl _, rfl, fun held h => ?_,
      fun _ => ⟨rfl, rfl, rfl, rfl⟩⟩, ?_, rfl⟩
    · rw [hheld] at h
      cases h
    · rw [Function.update_eq_self]
  | some held =>
    refine ⟨_, ⟨?_, ?_, ?_, ?_, fun held' h => ?_, fun h => ?_⟩, rfl, rfl⟩
    · rfl
    · rfl
    · exact Nat.le_max_left _ _
    · rfl
    · rw [hheld] at h
      obtain rfl := Option.some.inj h
      exact ⟨rfl, Nat.le_max_right _ _, rfl, rfl⟩
    · rw [hheld] at h
      cases h

/-- A registration that is entered has adopted the held one at its URL, and has a marker that is not
below those of what it replaces. -/
structure Enters (s : ShareServer) (r : Nat) (reg : ShareRegistration) : Prop extends
    Adopts s r reg where
  staged : reg.staged = false
  replaced : ∀ old ∈ s.replacedBy r, old ≠ r → (s.registrations old).marker ≤ reg.marker

theorem publish_enters (s : ShareServer) (r : Nat) : ∃ reg, s.Enters r reg ∧
    (s.publish r).registrations = Function.update s.registrations r reg ∧
    (s.publish r).markerFloors = s.markerFloors := by
  obtain ⟨a, ha, hregs, hfloors⟩ := adoptIfHeld_adopts s r
  let t := s.adoptIfHeld r
  have hself : t.registrations r = a := by
    show (s.adoptIfHeld r).registrations r = a
    rw [hregs, Function.update_self]
  let raised := (s.replacedBy r).foldl (fun m old => max m (t.registrations old).marker) a.marker
  obtain ⟨hle, hmem⟩ := le_foldl_max (f := fun old => (t.registrations old).marker) (s.replacedBy r)
    a.marker
  have hraised : a.marker ≤ raised := hle
  let reg : ShareRegistration :=
    { a with marker := max raised (s.markerFloors a.route), staged := false }
  have hreg : a.marker ≤ reg.marker := by
    show _ ≤ max raised _
    omega
  refine ⟨reg, ⟨⟨ha.place, ha.closed, Nat.le_trans ha.marker hreg, ha.future, fun held h => ?_,
    ha.unheld⟩, rfl, fun old hold hne => ?_⟩, ?_, hfloors⟩
  · obtain ⟨hc, hm, hh⟩ := ha.adopted held h
    exact ⟨hc, Nat.le_trans hm hreg, hh⟩
  · have hold := hmem old hold
    have hsame : t.registrations old = s.registrations old := by
      show (s.adoptIfHeld r).registrations old = _
      rw [hregs, Function.update_of_ne hne]
    rw [hsame] at hold
    show _ ≤ max raised _
    have hold : (s.registrations old).marker ≤ raised := hold
    omega
  · have hunfold : (s.publish r).registrations = Function.update
        ((t.raiseMarker r (s.replacedBy r)).registrations) r
        { (t.raiseMarker r (s.replacedBy r)).registrations r with staged := false } := rfl
    have hraise : (t.raiseMarker r (s.replacedBy r)).registrations =
        Function.update t.registrations r { a with marker := max raised (s.markerFloors a.route) } := by
      show Function.update t.registrations r _ = _
      rw [hself]
      show Function.update t.registrations r { a with marker := max raised (t.markerFloors a.route) } = _
      rw [hfloors]
    rw [hunfold, hraise, Function.update_self, Function.update_idem]
    show Function.update (s.adoptIfHeld r).registrations r reg = _
    rw [hregs, Function.update_idem]

/-- A registration may be entered: there is a held one at its URL, or no value has been installed there
and what it replaces is known. -/
def Ready (s : ShareServer) (r : Nat) : Prop :=
  s.rejoins (s.place r).inNamespace (s.place r).spec = true ∨
    s.markerFloors (s.place r).route = 0 ∧ ∀ old, s.Live old → (s.place old).route = (s.place r).route →
      s.current (s.place r).inNamespace (s.place r).spec = some old

theorem Enters.place_eq {r : Nat} {reg : ShareRegistration} (he : s.Enters r reg)
    (hregs : s'.registrations = Function.update s.registrations r reg) (j : Nat) :
    s'.place j = s.place j := by
  unfold ShareServer.place
  rw [hregs, Function.update_apply]
  split
  · rename_i hj
    rw [hj]
    exact he.place
  · rfl

theorem Enters.live_iff {r : Nat} {reg : ShareRegistration} (he : s.Enters r reg)
    (hregs : s'.registrations = Function.update s.registrations r reg)
    (hclosed : (s.registrations r).closed = false) (j : Nat) : s'.Live j ↔ j = r ∨ s.Live j := by
  unfold Live
  rw [hregs, Function.update_apply]
  split
  · rename_i hj
    exact ⟨fun _ => Or.inl hj, fun _ => ⟨he.closed.trans hclosed, he.staged⟩⟩
  · rename_i hj
    exact ⟨Or.inr, fun h => h.resolve_left hj⟩

namespace Follows

theorem publish (h : s.Follows url v) (hi : s.Indexed spare lost) {r : Nat} (hready : s.Ready r)
    (hstaged : (s.registrations r).staged = true) (hclosed : (s.registrations r).closed = false) :
    (s.publish r).Follows url v := by
  obtain ⟨reg, he, hregs, hfloors⟩ := publish_enters s r
  have hplace := he.place_eq hregs
  have hlive := he.live_iff hregs hclosed
  have hversion : ∀ j, (s.publish r).version j = if j = r then (reg.marker, reg.checksum)
      else s.version j := by
    intro j
    unfold ShareServer.version
    rw [hregs, Function.update_apply]
    split
    · rfl
    · rfl
  have hheld : ∀ held, s.heldFor r = some held →
      s.Live held ∧ (s.place held).route = (s.place r).route := by
    intro held hh
    obtain ⟨hfound, hroute⟩ := heldRegistrationFor_found hh
    exact ⟨hi.found_live hfound, hroute⟩
  refine ⟨fun j => ?_, fun j hj => ?_, fun j hj hroute => ?_, fun hgone => ?_, h.origin⟩
  · rw [hregs, Function.update_apply]
    split
    · exact fun _ => he.staged
    · exact h.published j
  · rw [hplace, hfloors]
    rw [hversion] at hj ⊢
    split at hj
    · rename_i hjr
      rw [if_pos hjr, hjr]
      cases hcase : s.heldFor r with
      | some held =>
        obtain ⟨hc, hm, -⟩ := he.adopted held hcase
        have hs := h.stamped held fun hnone => hj (hc.trans hnone)
        rw [(hheld held hcase).2] at hs
        exact ⟨Nat.lt_of_lt_of_le hs.1 hm, hs.2⟩
      | none =>
        have hs := h.stamped r fun hnone => hj ((he.unheld hcase).1.trans hnone)
        exact ⟨Nat.lt_of_lt_of_le hs.1 he.marker, hs.2⟩
    · rename_i hjr
      rw [if_neg hjr]
      exact h.stamped j hj
  · rw [hplace] at hroute
    rw [hversion]
    split
    · rename_i hjr
      subst hjr
      cases hcase : s.heldFor j with
      | some held =>
        obtain ⟨hc, hm, -⟩ := he.adopted held hcase
        obtain ⟨hl, hr⟩ := hheld held hcase
        exact (h.live held hl (hr.trans hroute)).raise hm hc
      | none =>
        -- nothing is held at the URL, so no value has been installed there
        rcases hready with hrejoins | ⟨hfloor, hcur⟩
        · exact absurd hcase (heldRegistrationFor_isSome hi (s.place j).routed hrejoins)
        have hunset : ∀ i, (s.place i).route = (s.place j).route → (s.registrations i).checksum = none := by
          intro i hsame
          by_contra hsome
          have hs := (h.stamped i hsome).2
          rw [hsame] at hs
          omega
        have hnone : reg.checksum = none := (he.unheld hcase).1.trans (hunset j rfl)
        by_cases hgone : ∀ i, s.Live i → (s.place i).route ≠ url
        · exact h.first hgone (hroute ▸ hfloor) _ hnone
        · push Not at hgone
          obtain ⟨old, hold, hsame⟩ := hgone
          have hsame' : (s.place old).route = (s.place j).route := hsame.trans hroute.symm
          have hmem : old ∈ s.replacedBy j :=
            List.mem_append_right _ (Option.mem_toList.mpr (hcur old hold hsame'))
          have hne : old ≠ j := by
            rintro rfl
            rw [hold.2] at hstaged
            cases hstaged
          exact (h.live old hold hsame).raise (he.replaced old hmem hne)
            (hnone.trans (hunset old hsame').symm)
    · rename_i hjr
      exact h.live j (((hlive j).mp hj).resolve_left hjr) hroute
  · rw [hfloors]
    refine h.gone fun j hj => ?_
    rw [← hplace]
    exact hgone j ((hlive j).mpr (Or.inr hj))

end Follows

/-- Entering a registration leaves other URLs alone. -/
theorem publish_current (s : ShareServer) {r : Nat} {name : String} {spec : ServedSpec} {route : Route}
    (hroute : routeFor name spec = .ok route) (hne : (s.place r).route ≠ route) :
    (s.publish r).current name spec = s.current name spec := by
  have hplace : ∀ {t : ShareServer}, SamePlaces s t → (t.unstage r).current name spec =
      t.current name spec := by
    intro t ht
    have hrouted := (s.place r).routed
    have hreg : (t.modify r fun reg => { reg with staged := false }).place r = s.place r := by
      rw [← (ht.places r).1]
      unfold ShareServer.place
      rw [modify_registrations, if_pos rfl]
    have htop : (t.unstage r).topRecords = if (s.place r).spec.toplevel then
        t.topRecords.insert (s.place r).spec.path r else t.topRecords := by
      rw [← hreg]
      rfl
    have hrecords : (t.unstage r).records = if (s.place r).spec.toplevel then t.records
        else t.records.insert ((s.place r).inNamespace, (s.place r).spec.path) r := by
      rw [← hreg]
      rfl
    unfold current
    rw [htop, hrecords]
    cases hspec : spec.toplevel with
    | true =>
      rw [if_pos rfl, if_pos rfl]
      split
      · rename_i hr
        rw [AList.lookup_insert_ne]
        intro hpath
        obtain ⟨key, hkey, hkr, -⟩ := routeFor_toplevel hrouted hr
        obtain ⟨key', hkey', hkr', -⟩ := routeFor_toplevel hroute hspec
        rw [hkey, hkey'] at hpath
        rw [hkr, hkr'] at hne
        exact hne hpath.symm
      · rfl
    | false =>
      rw [if_neg Bool.false_ne_true, if_neg Bool.false_ne_true]
      split
      · rfl
      · rename_i hr
        have hr : (s.place r).spec.toplevel = false := by simpa using hr
        rw [AList.lookup_insert_ne]
        intro hkey
        obtain ⟨first, rest, hpath, hkr, -⟩ := routeFor_inNamespace hrouted hr
        obtain ⟨first', rest', hpath', hkr', -⟩ := routeFor_inNamespace hroute hspec
        have heq := Prod.mk.inj hkey
        rw [hkr, hkr', ← hpath, ← hpath', heq.1, heq.2] at hne
        exact hne rfl
  have hsame := (adoptIfHeld_same s r).trans (raiseMarker_same _ r (s.replacedBy r))
  exact (hplace hsame).trans (hsame.current name spec)

theorem Ready.publish {r j : Nat} (h : s.Ready r) (hi : s.Indexed spare lost)
    (hstaged : (s.registrations j).staged = true) (hclosed : (s.registrations j).closed = false)
    (hne : (s.place j).route ≠ (s.place r).route) : (s.publish j).Ready r := by
  obtain ⟨reg, he, hregs, hfloors⟩ := publish_enters s j
  have hplace := he.place_eq hregs
  have hlive := he.live_iff hregs hclosed
  have hcurrent := publish_current s (s.place r).routed hne
  unfold Ready rejoins
  rw [hplace, hcurrent, hfloors]
  rcases h with hrejoins | ⟨hfloor, hcur⟩
  · left
    obtain ⟨held, hfind, hh⟩ := (Option.any_eq_true ..).mp hrejoins
    refine (Option.any_eq_true ..).mpr ⟨held, hfind, ?_⟩
    have hheldlive := hi.found_live (Or.inr hfind)
    have hneq : held ≠ j := by
      rintro rfl
      rw [hheldlive.2] at hstaged
      cases hstaged
    rw [hregs, Function.update_of_ne hneq]
    exact hh
  · right
    refine ⟨hfloor, fun old hold hsame => ?_⟩
    rw [hplace] at hsame
    refine hcur old (((hlive old).mp hold).resolve_left ?_) hsame
    rintro rfl
    exact hne hsame

/-- The registrations of a batch that passes the checks have different URLs and different keys. -/
theorem commitChecks_apart {registrations : List Nat}
    (h : ∀ check ∈ s.commitChecks registrations, check.1 = false) :
    registrations.Pairwise fun r r' => (s.place r).route ≠ (s.place r').route ∧
      (s.place r).tableKey ≠ (s.place r').tableKey := by
  have htails : ∀ r others, r :: others <:+ registrations → ∀ other ∈ others,
      (s.place r).route ≠ (s.place other).route ∧
        (s.place r).tableKey ≠ (s.place other).tableKey := by
    intro r others hsuffix other hother
    have hcheck := h _ (List.mem_append_right _ (List.mem_flatMap.mpr
      ⟨r :: others, (List.mem_tails _ _).mpr hsuffix, List.mem_map.mpr ⟨other, hother, rfl⟩⟩))
    dsimp only at hcheck
    rw [Bool.or_eq_false_iff, Bool.or_eq_false_iff, Bool.or_eq_false_iff] at hcheck
    refine ⟨?_, fun hkey => ?_⟩
    · have hroute := hcheck.1.1.1
      exact fun hsame => by simp [show (s.registrations r).route = _ from hsame, place] at hroute
    · have hsame := hcheck.1.1.2
      have heq := Prod.mk.inj (Option.some.inj hkey)
      have hname : (s.registrations r).inNamespace = (s.registrations other).inNamespace := heq.1
      have hpath : (s.registrations r).spec.path = (s.registrations other).spec.path := heq.2
      simp [hname, hpath] at hsame
  clear h
  induction registrations with
  | nil => exact List.Pairwise.nil
  | cons r registrations ih =>
    refine List.pairwise_cons.mpr ⟨htails r registrations (List.suffix_refl _), ih ?_⟩
    exact fun j others hsuffix => htails j others (hsuffix.trans (List.suffix_cons ..))

namespace Follows

theorem publishAll (registrations : List Nat) : ∀ {s : ShareServer} {spare lost : Nat → Prop},
    s.Follows url v → s.Indexed spare lost → s.Sane → registrations.Nodup →
    (registrations.Pairwise fun r r' => (s.place r).route ≠ (s.place r').route) →
    (∀ r ∈ registrations, s.Ready r ∧ r ∈ s.stagedReservations ∧
      (s.namespaces.lookup (s.place r).inNamespace).isSome = true) →
    (publishAll registrations s).1.Follows url v := by
  induction registrations with
  | nil => exact fun h _ _ _ _ _ => h
  | cons r registrations ih =>
    intro s spare lost h hi hs hnodup hroutes hmem
    obtain ⟨hready, hr, hns⟩ := hmem r (List.mem_cons_self ..)
    obtain ⟨hnot, hnodup⟩ := List.nodup_cons.mp hnodup
    obtain ⟨hfirst, hroutes⟩ := List.pairwise_cons.mp hroutes
    obtain ⟨hstaged, hclosed⟩ := hs.staged r hr
    obtain ⟨t, hsame, ht⟩ := publish_eq s r
    obtain ⟨reg, he, hregs, -⟩ := publish_enters s r
    have hplace := he.place_eq hregs
    have hclosed' : (t.registrations r).closed = false := by
      rw [(hsame.places r).2.2]
      exact hclosed
    have hi' := (hsame.indexed hi).unstage hclosed' (by
      rw [(hsame.places r).1]
      exact hsame.spaces _ hns)
    have hs' := (hsame.sane hs).unstage hclosed'
    rw [← ht] at hi' hs'
    refine ih (h.publish hi hready hstaged hclosed) hi' hs' hnodup ?_ fun j hj => ?_
    · refine hroutes.imp fun hne => ?_
      rw [hplace, hplace]
      exact hne
    · obtain ⟨hreadyj, hstagedj, hspace⟩ := hmem j (List.mem_cons_of_mem _ hj)
      have hne : j ≠ r := fun hjr => hnot (hjr ▸ hj)
      refine ⟨hreadyj.publish hi hstaged hclosed (hfirst j hj), ?_, ?_⟩
      · rw [ht]
        exact List.mem_filter.mpr ⟨hsame.staged ▸ hstagedj, by simpa using hne⟩
      · rw [hplace, ht]
        exact unstage_spaces t r (hsame.spaces _ hspace)

theorem commitReservations (h : s.Follows url v) (hi : s.Indexed (fun _ => False) lost) (hs : s.Sane)
    {registrations : List Nat}
    (hcarries : (∀ check ∈ s.commitChecks registrations, check.1 = false) → ∀ r ∈ registrations,
      s.rejoins (s.place r).inNamespace (s.place r).spec = true ∨
        s.markerFloors (s.place r).route = 0) :
    (s.commitReservations registrations).2.Follows url v := by
  have hquiet := Quiet.takeOverAll registrations s
  rcases commitReservations_cases s registrations with ⟨-, -, heq⟩ | ⟨hchecks, htake, heq⟩
  · rcases heq with heq | ⟨-, heq⟩
    · rw [heq]
      exact h
    · rw [heq]
      exact h.quiet hquiet
  · have hsame := takeOverAll_same registrations s
    obtain ⟨hstaged, hnodup⟩ := commitChecks_ok hchecks
    have hspaces := takeOverAll_ok registrations htake
    have hregs : (takeOverAll registrations s).2.registrations = s.registrations :=
      takeOverAll_registrations registrations s
    rw [heq]
    refine Follows.foldl (fun s r h => h.removeRegistration r) _ _ ?_
    refine publishAll registrations (h.quiet hquiet) (hsame.indexed hi) (hsame.sane hs) hnodup ?_
      fun r hr => ⟨?_, hsame.staged ▸ hstaged r hr, ?_⟩
    · refine (commitChecks_apart hchecks).imp fun hne => ?_
      rw [(hsame.places _).1, (hsame.places _).1]
      exact hne.1
    · unfold Ready rejoins
      rw [(hsame.places r).1, hsame.current, hquiet.floors, hregs]
      refine (hcarries hchecks r hr).imp id fun hfloor => ⟨hfloor, fun old hold hroute => ?_⟩
      rw [(hsame.places old).1] at hroute
      exact hi.current_complete (s.place r).routed ((hsame.live old).mp hold) not_false hroute
    · rw [(hsame.places r).1]
      exact hsame.spaces _ (hspaces r hr)

end Follows

/-! ## Steps -/

/-- What takes over a URL that has had a value takes over its version. -/
def Carries (s : ShareServer) : Event → Prop
  | .reserve name spec owner replaces false =>
    match routeFor name spec with
    | .error _ => True
    | .ok route => firstError (s.reservationChecks name spec route owner replaces []) = .ok () →
      s.rejoins name spec = true ∨ s.current name spec = none ∧ s.markerFloors route = 0
  | .commitReservations registrations =>
    firstError (s.commitChecks registrations) = .ok () → ∀ r ∈ registrations,
      s.rejoins (s.place r).inNamespace (s.place r).spec = true ∨
        s.markerFloors (s.place r).route = 0
  | _ => True

theorem Carries.reserve {name : String} {spec : ServedSpec} {owner : Option Owner}
    {replaces : List Nat} (h : s.Carries (.reserve name spec owner replaces false))
    (hadmits : s.Admits name spec owner replaces) {route : Route}
    (hroute : routeFor name spec = .ok route) :
    s.rejoins name spec = true ∨ s.current name spec = none ∧ s.markerFloors route = 0 := by
  obtain ⟨route', hroute', hchecks⟩ := hadmits
  obtain rfl := Except.ok.inj (hroute.symm.trans hroute')
  unfold Carries at h
  dsimp only at h
  rw [hroute] at h
  exact h hchecks

theorem Carries.keepsTables {event : Event} (h : s.Carries event) :
    s.KeepsTables (fun _ => True) event := by
  refine ⟨?_, fun name _ r _ hlost => absurd trivial hlost⟩
  split
  · intro hadmits
    obtain ⟨route, hroute, -⟩ := id hadmits
    refine ⟨fun old hold => ?_, fun old _ hlost => absurd trivial hlost⟩
    rcases h.reserve hadmits hroute with hrejoins | ⟨hnone, -⟩
    · unfold rejoins at hrejoins
      rw [hold] at hrejoins
      exact hrejoins
    · rw [hold] at hnone
      cases hnone
  · trivial

namespace Follows

theorem closeNamespace (h : s.Follows url v) (name : String) (owner : Owner) :
    (s.closeNamespace name owner).Follows url v := by
  unfold ShareServer.closeNamespace
  split
  · exact h
  · split
    · exact h
    · split
      · exact h
      · refine quiet (foldl (fun s r h => h.expire r) _ _ ?_) (.of_eq rfl rfl)
        exact foldl (fun s r h => h.expire r) _ _ h

theorem step (h : s.Follows url v) (hi : s.Indexed (fun _ => False) lost) (hs : s.Sane) {event : Event}
    (hcarries : s.Carries event) (hstep : step s event = some s') : s'.Follows url v := by
  have hsome : ∀ {t : ShareServer}, some t = some s' → t.Follows url v → s'.Follows url v :=
    fun heq ht => Option.some.inj heq ▸ ht
  cases event with
  | start => exact hsome hstep (h.quiet (.of_eq rfl rfl))
  | tick duration => exact hsome hstep (h.quiet (.of_eq rfl rfl))
  | reserve name spec owner replaces staged =>
    dsimp only [ShareServer.step] at hstep
    split at hstep
    · rename_i t hres
      refine hsome hstep (h.reserve hi hs (fun hstaged route hroute => ?_) hres)
      subst hstaged
      exact hcarries.reserve (admits_of_reserve hres) hroute
    · exact hsome hstep h
  | commitReservations registrations =>
    exact hsome hstep (h.commitReservations hi hs fun hchecks => hcarries (firstError_eq hchecks))
  | activate r =>
    dsimp only [ShareServer.step] at hstep
    split at hstep
    · rename_i hr
      rw [Bool.and_eq_true] at hr
      exact hsome hstep (h.quiet (.activate (by simpa using hr.2)))
    · cases hstep
  | completeReattach r =>
    dsimp only [ShareServer.step] at hstep
    split at hstep
    · exact hsome hstep (h.quiet (.completeReattach s r))
    · cases hstep
  | deliver r seq checksum expected =>
    dsimp only [ShareServer.step] at hstep
    split at hstep
    · exact hsome hstep (h.deliver r seq checksum expected)
    · cases hstep
  | beginCloseNamespace name owner =>
    dsimp only [ShareServer.step] at hstep
    split at hstep
    · exact hsome hstep (h.quiet (.beginCloseNamespace s name owner))
    · exact hsome hstep h
  | holdRegistration r =>
    dsimp only [ShareServer.step] at hstep
    split at hstep
    · exact hsome hstep (h.quiet (.holdRegistration s r))
    · cases hstep
  | holdNamespace name owner timeout =>
    dsimp only [ShareServer.step] at hstep
    split at hstep
    · exact hsome hstep (h.quiet (.holdNamespace s name owner timeout))
    · exact hsome hstep h
  | expireHolds name =>
    dsimp only [ShareServer.step] at hstep
    split at hstep
    · refine hsome hstep ?_
      unfold expireHolds
      split
      · exact h
      · split
        · exact (foldl (fun s r h => h.expire r) _ _ h).quiet (.endHold _ name)
        · exact h
    · cases hstep
  | closeNamespace name owner =>
    dsimp only [ShareServer.step] at hstep
    split at hstep
    · exact hsome hstep (h.closeNamespace name owner)
    · cases hstep
  | releaseNamespace name owner =>
    dsimp only [ShareServer.step] at hstep
    split at hstep
    · cases hstep
    · refine hsome hstep (h.quiet ?_)
      unfold releaseNamespace
      split
      · exact .of_eq rfl rfl
      · exact .of_eq rfl rfl
  | unregister r closeNamespace =>
    dsimp only [ShareServer.step] at hstep
    split at hstep
    · exact hsome hstep (h.quiet (.of_eq rfl rfl))
    · exact hsome hstep (h.removeRegistration r)
  | removeNext task =>
    dsimp only [ShareServer.step] at hstep
    split at hstep
    · cases hstep
    · exact hsome hstep ((h.removeRegistration _).quiet (.of_eq rfl rfl))
    · refine hsome hstep (h.quiet (Quiet.trans (?_ : Quiet s (s.finishUnregister _)) (.of_eq rfl rfl)))
      unfold finishUnregister
      dsimp only
      split
      · exact .of_eq rfl rfl
      · exact .of_eq rfl rfl
  | put url marker =>
    dsimp only [ShareServer.step] at hstep
    split at hstep
    · cases hstep
    · split at hstep
      · exact hsome hstep (h.quiet (.of_eq rfl rfl))
      · rename_i r _
        exact hsome hstep (h.quiet ((Quiet.enterPut s r).trans (.of_eq rfl rfl)))
  | resumePut i =>
    dsimp only [ShareServer.step] at hstep
    split at hstep
    · split at hstep
      · cases hstep
      · exact hsome hstep (h.quiet (.of_eq rfl rfl))
      · rename_i r _
        exact hsome hstep (h.quiet ((Quiet.enterPut s r).trans (.of_eq rfl rfl)))
    · cases hstep
  | timeoutPut i =>
    dsimp only [ShareServer.step] at hstep
    split at hstep
    · exact hsome hstep (h.quiet (.of_eq rfl rfl))
    · cases hstep
  | installPut i value =>
    dsimp only [ShareServer.step] at hstep
    split at hstep
    · rename_i marker r _
      exact hsome hstep ((h.installPut r marker value).quiet (.of_eq rfl rfl))
    · cases hstep

end Follows

/-! ## Runs -/

theorem initial_follows (url : Route) : initial.Follows url (0, none) where
  published r hr := by cases hr
  stamped r hr := absurd rfl hr
  live r hr := by cases hr.1
  gone _ := Nat.le_refl _
  origin _ := rfl

/-- The registration that answers a URL is a live one of this URL. -/
theorem answering_live (hi : s.Indexed spare lost) {r : Nat} (hr : s.answering url = some r) :
    s.Live r ∧ (s.place r).route = url := by
  obtain ⟨hfind, -⟩ := Option.filter_eq_some_iff.mp hr
  have hrouted := (s.place r).routed
  unfold dispatch at hfind
  split at hfind
  · cases hfind
  · split at hfind
    · rename_i r' _ hlookup
      obtain rfl := Option.some.inj hfind
      obtain ⟨hlive, hkey⟩ := hi.top.sound hlookup
      unfold Reservation.topKey at hkey
      split at hkey
      · rename_i htop
        obtain ⟨key, hpath, hroute, -⟩ := routeFor_toplevel hrouted htop
        refine ⟨hlive, ?_⟩
        rw [hroute, ← hpath]
        exact Option.some.inj hkey
      · cases hkey
    · rename_i name first rest _
      split at hfind
      · cases hfind
      · obtain ⟨hlive, hkey⟩ := hi.record.sound hfind
        unfold Reservation.recordKey at hkey
        split at hkey
        · cases hkey
        · rename_i htop
          obtain ⟨first', rest', hpath, hroute, -⟩ :=
            routeFor_inNamespace hrouted (by simpa using htop)
          have heq := Prod.mk.inj (Option.some.inj hkey)
          refine ⟨hlive, ?_⟩
          rw [hroute, ← hpath, heq.1, heq.2]
    · cases hfind

/-- A later state shows no lower marker at a URL, and under the same marker the same checksum; a PUT
that names a marker replaces the value that was shown under it. -/
structure NamesVersion (s s' : ShareServer) : Prop where
  versions : ∀ url v v', s.shows url = some v → s'.shows url = some v' →
    v.1 ≤ v'.1 ∧ (v'.1 = v.1 → v'.2 = v.2)
  puts : ∀ url marker checksum, s.shows url = some (marker, checksum) → ∀ r value written marker',
    (s'.place r).route = url → (s'.installPut r (some marker) value).2 = .ok written marker' →
      (s'.registrations r).checksum = checksum

theorem namesVersion_of (hi : s'.Indexed spare lost)
    (h : ∀ url v, s.shows url = some v → s'.Follows url v) : s.NamesVersion s' where
  versions url v v' hv hv' := by
    obtain ⟨r, hr, rfl⟩ := Option.map_eq_some_iff.mp hv'
    obtain ⟨hlive, hroute⟩ := answering_live hi hr
    have hleads := (h url v hv).live r hlive hroute
    exact ⟨hleads.le, hleads.eq_of_marker⟩
  puts url marker checksum hv r value written marker' hroute hput := by
    have hfollows := h url _ hv
    unfold installPut at hput
    split at hput
    · cases hput
    · dsimp only at hput
      split at hput
      · cases hput
      · rename_i hr
        split at hput
        · cases hput
        · rename_i hmarker
          have hmarker : marker = (s'.registrations r).marker := by simpa using hmarker
          have hlive := hfollows.live_of_active (Bool.eq_false_iff.mpr hr)
          exact (hfollows.live r hlive hroute).eq_of_marker hmarker.symm

/-- As long as versions are taken over with their URLs, a marker names a version. -/
theorem reachable_namesVersion (h : Transition.Reachable step initial Carries s)
    (h' : Transition.Reachable step s Carries s') : s.NamesVersion s' := by
  let Kept := fun s : ShareServer => (s.Indexed (fun _ => False) fun _ => True) ∧ s.Sane
  have hkept : ∀ s next event, Kept s → s.Carries event → step s event = some next → Kept next :=
    fun s next event hk hc hstep => hk.1.step hk.2 hc.keepsTables hstep
  have hs : Kept s ∧ ∀ url, s.Follows url (0, none) := by
    refine h.invariant (I := fun s => Kept s ∧ ∀ url, s.Follows url (0, none)) ?_ ?_
    · exact ⟨⟨initial_indexed, initial_sane⟩, initial_follows⟩
    · rintro s next event ⟨hk, hf⟩ hc hstep
      exact ⟨hkept s next event hk hc hstep, fun url => (hf url).step hk.1 hk.2 hc hstep⟩
  -- what a URL shows is the version of its one registration
  have hshown : ∀ url v, s.shows url = some v → s.Follows url v := by
    intro url v hv
    obtain ⟨r, hr, rfl⟩ := Option.map_eq_some_iff.mp hv
    obtain ⟨hlive, hroute⟩ := answering_live hs.1.1 hr
    have hf := hs.2 url
    refine ⟨hf.published, hf.stamped, fun j hj hsame => ?_, fun hgone => ?_, fun hzero => ?_⟩
    · have hjr : j = r := hs.1.1.route_unique hj hlive not_false not_false (hsame.trans hroute.symm)
      rw [hjr]
      exact Leads.refl _
    · exact absurd hroute (hgone r hlive)
    · by_contra hsome
      have hpos := (hf.stamped r hsome).1
      have hzero : (s.version r).1 = 0 := hzero
      omega
  have hs' : Kept s' ∧ ∀ url v, s.shows url = some v → s'.Follows url v := by
    refine h'.invariant (I := fun t => Kept t ∧ ∀ url v, s.shows url = some v → t.Follows url v) ?_ ?_
    · exact ⟨hs.1, hshown⟩
    · rintro t next event ⟨hk, hf⟩ hc hstep
      exact ⟨hkept t next event hk hc hstep, fun url v hv => (hf url v hv).step hk.1 hk.2 hc hstep⟩
  exact namesVersion_of hs'.1.1 hs'.2

instance (s : ShareServer) (event : Event) : Decidable (s.Carries event) := by
  delta Carries
  refine Event.casesOn event ?_ ?_ (fun name spec owner replaces staged => ?_) ?_ ?_ ?_ ?_ ?_ ?_ ?_ ?_ ?_ ?_ ?_ ?_ ?_ ?_ ?_ ?_
  case refine_3 =>
    refine Bool.casesOn staged ?_ inferInstance
    dsimp only
    exact Except.casesOn (routeFor name spec) (fun _ => inferInstance) fun _ => inferInstance
  all_goals
    intros
    infer_instance

/-- A cell is shared and gets a value. -/
def shareOnce : List Event :=
  [.reserve "ctx" { path := ["a"], readonly := false } (some (.context 0)) [] false, .start,
    .activate 0, .deliver 0 1 (some ⟨5⟩) none]

theorem shareOnce_runs : (Transition.run step shareOnce initial).isSome = true := by decide

def shared : ShareServer := (Transition.run step shareOnce initial).get shareOnce_runs

theorem shared_reachable {condition : ShareServer → Event → Prop}
    (h : ∀ s event, s.Carries event → condition s event) :
    Transition.Reachable step initial condition shared :=
  (Transition.Reachable.of_run .start (by decide) shareOnce_runs).mono h

/-- The namespace is held and another Context re-attaches, after which a PUT names the marker. -/
def reattachAndPut : List Event :=
  [.holdNamespace "ctx" (.context 0) 10,
    .reserve "ctx" { path := ["a"], readonly := false } (some (.context 1)) [] true,
    .commitReservations [1], .activate 1, .completeReattach 1, .put ["ctx", "a"] (some 1),
    .installPut 0 (some ⟨7⟩)]

theorem reattachAndPut_runs : (Transition.run step reattachAndPut shared).isSome = true := by decide

theorem reachable_namesVersion_reattachAndPut :
    shared.NamesVersion ((Transition.run step reattachAndPut shared).get reattachAndPut_runs) :=
  reachable_namesVersion (shared_reachable fun _ _ h => h)
    (Transition.Reachable.of_run .start (by decide) reattachAndPut_runs)

/-- The share is removed and made anew. -/
def shareAnew : List Event :=
  [.unregister 0 false, .removeNext 0, .removeNext 0,
    .reserve "ctx" { path := ["a"], readonly := false } (some (.context 0)) [] false, .activate 1]

theorem shareAnew_runs : (Transition.run step shareAnew shared).isSome = true := by decide

theorem not_reachable_namesVersion :
    ¬ ∀ s s', Transition.Reachable step initial (fun _ _ => True) s →
      Transition.Reachable step s (fun _ _ => True) s' → s.NamesVersion s' := by
  intro h
  have hnames := h _ _ (shared_reachable fun _ _ _ => trivial)
    (Transition.Reachable.of_run .start (by decide) shareAnew_runs)
  have hsame := (hnames.versions ["ctx", "a"] (1, some ⟨5⟩) (1, none) (by decide) (by decide)).2 rfl
  cases hsame

end ShareServer

end SeamlessWorkflow
