import SeamlessWorkflow.Proofs.ShareTables

/-!
# What the steps of the share server do to its tables
-/

namespace SeamlessWorkflow

/-! ## Routes -/

theorem routeFor_toplevel {name : String} {spec : ServedSpec} {route : Route}
    (h : routeFor name spec = .ok route) (htop : spec.toplevel = true) :
    ∃ key, spec.path = [key] ∧ route = [key] ∧ key ∉ reservedToplevelKeys := by
  unfold routeFor at h
  split at h
  · cases h
  · split at h
    · cases h
    · split at h
      · cases h
      · rename_i hlen
        split at h
        · cases h
        · rename_i hreserved
          obtain ⟨key, hkey⟩ := List.length_eq_one_iff.mp (not_not.mp hlen)
          refine ⟨key, hkey, ?_, fun hmem => hreserved ?_⟩
          · rw [← hkey]
            exact (Except.ok.inj h).symm
          · rw [hkey]
            exact List.contains_iff_mem.mpr hmem

theorem routeFor_inNamespace {name : String} {spec : ServedSpec} {route : Route}
    (h : routeFor name spec = .ok route) (htop : spec.toplevel = false) :
    ∃ first rest, spec.path = first :: rest ∧ route = name :: first :: rest ∧
      (rest = [] → first ∉ reservedNamespaceKeys) := by
  unfold routeFor at h
  split at h
  · cases h
  · rename_i hempty
    split at h
    · cases h
    · rw [if_neg (by simp [htop])] at h
      split at h
      · cases h
      · rename_i hreserved
        cases hpath : spec.path with
        | nil =>
          rw [hpath] at hempty
          exact absurd rfl hempty
        | cons first rest =>
          refine ⟨first, rest, rfl, ?_, ?_⟩
          · rw [← hpath]
            exact (Except.ok.inj h).symm
          · rintro rfl hmem
            refine hreserved ?_
            rw [hpath]
            exact ⟨rfl, List.contains_iff_mem.mpr hmem⟩

/-- A URL determines the table and the key of a registration. -/
theorem routeFor_inj {name name' : String} {spec spec' : ServedSpec} {route : Route}
    (h : routeFor name spec = .ok route) (h' : routeFor name' spec' = .ok route) :
    spec'.toplevel = spec.toplevel ∧ spec'.path = spec.path ∧
      (spec.toplevel = false → name' = name) := by
  cases htop : spec.toplevel with
  | true =>
    obtain ⟨key, hpath, hroute, -⟩ := routeFor_toplevel h htop
    cases htop' : spec'.toplevel with
    | true =>
      obtain ⟨key', hpath', hroute', -⟩ := routeFor_toplevel h' htop'
      refine ⟨rfl, ?_, fun hf => by cases hf⟩
      rw [hpath, hpath', ← hroute, ← hroute']
    | false =>
      obtain ⟨first, rest, -, hroute', -⟩ := routeFor_inNamespace h' htop'
      rw [hroute'] at hroute
      simp at hroute
  | false =>
    obtain ⟨first, rest, hpath, hroute, -⟩ := routeFor_inNamespace h htop
    cases htop' : spec'.toplevel with
    | true =>
      obtain ⟨key', -, hroute', -⟩ := routeFor_toplevel h' htop'
      rw [hroute'] at hroute
      simp at hroute
    | false =>
      obtain ⟨first', rest', hpath', hroute', -⟩ := routeFor_inNamespace h' htop'
      rw [hroute'] at hroute
      have heq := List.cons.inj hroute
      exact ⟨rfl, by rw [hpath, hpath', heq.2], fun _ => heq.1⟩

namespace ShareServer

variable {s s' : ShareServer} {spare lost : Nat → Prop}

section Held

variable {name : String} {spec : ServedSpec} {route : Route}

/-- The registration that a table finds for a URL is one of this URL. -/
theorem Indexed.current_sound (h : s.Indexed spare lost) (hroute : routeFor name spec = .ok route)
    {r : Nat} (hr : s.current name spec = some r) :
    s.Live r ∧ (s.place r).route = route ∧ (s.place r).spec.toplevel = spec.toplevel ∧
      (s.place r).spec.path = spec.path := by
  have hrouted := (s.place r).routed
  unfold current at hr
  cases htop : spec.toplevel with
  | true =>
    rw [if_pos htop] at hr
    obtain ⟨hlive, hkey⟩ := h.top.sound hr
    unfold Reservation.topKey at hkey
    split at hkey
    · rename_i hrtop
      obtain ⟨key, hpath, hroute', -⟩ := routeFor_toplevel hrouted hrtop
      obtain ⟨key', hpath', hroute'', -⟩ := routeFor_toplevel hroute htop
      have heq := Option.some.inj hkey
      refine ⟨hlive, ?_, hrtop, heq⟩
      rw [hroute', hroute'', ← hpath, ← hpath', heq]
    · cases hkey
  | false =>
    rw [if_neg (by simp [htop])] at hr
    obtain ⟨hlive, hkey⟩ := h.record.sound hr
    unfold Reservation.recordKey at hkey
    split at hkey
    · cases hkey
    · rename_i hrtop
      have hrtop : (s.place r).spec.toplevel = false := by simpa using hrtop
      obtain ⟨first, rest, hpath, hroute', -⟩ := routeFor_inNamespace hrouted hrtop
      obtain ⟨first', rest', hpath', hroute'', -⟩ := routeFor_inNamespace hroute htop
      have heq := Prod.mk.inj (Option.some.inj hkey)
      refine ⟨hlive, ?_, hrtop, heq.2⟩
      rw [hroute', hroute'', ← hpath, ← hpath', heq.1, heq.2]

/-- A live registration is found by its URL. -/
theorem Indexed.current_complete (h : s.Indexed spare lost) (hroute : routeFor name spec = .ok route)
    {r : Nat} (hr : s.Live r) (hspare : ¬ spare r) (heq : (s.place r).route = route) :
    s.current name spec = some r := by
  have hrouted := (s.place r).routed
  rw [heq] at hrouted
  obtain ⟨htop, hpath, hname⟩ := routeFor_inj hroute hrouted
  unfold current
  cases hspec : spec.toplevel with
  | true =>
    rw [if_pos rfl]
    refine h.top.complete hr hspare ?_
    unfold Reservation.topKey
    rw [if_pos (htop.trans hspec), hpath]
  | false =>
    rw [if_neg (by simp)]
    refine h.record.complete hr hspare ?_
    unfold Reservation.recordKey
    rw [if_neg (by simp [htop, hspec]), hpath, hname hspec]

theorem Indexed.route_unique (h : s.Indexed spare lost) {i j : Nat} (hi : s.Live i) (hj : s.Live j)
    (hsi : ¬ spare i) (hsj : ¬ spare j) (heq : (s.place i).route = (s.place j).route) : i = j := by
  have hfi := h.current_complete (s.place j).routed hi hsi heq
  have hfj := h.current_complete (s.place j).routed hj hsj rfl
  rw [hfi] at hfj
  exact Option.some.inj hfj

/-- The held registration of a URL is the one that its table finds, if that one is held. -/
theorem Indexed.held_eq_current (h : s.Indexed spare lost) (hroute : routeFor name spec = .ok route)
    (hspare : ∀ old, s.recordOf name spec.path = some old → ¬ spare old)
    (hheld : ∀ old, s.current name spec = some old → (s.registrations old).held = true) :
    s.heldRegistrationFor name spec route = s.current name spec := by
  unfold heldRegistrationFor
  dsimp only
  cases hrec : (s.recordOf name spec.path).filter fun r =>
      (s.registrations r).held && (s.registrations r).route == route with
  | some old =>
    obtain ⟨hfind, hrejoins⟩ := Option.filter_eq_some_iff.mp hrec
    rw [Bool.and_eq_true] at hrejoins
    have hlive := (h.table.sound (k := (name, spec.path)) hfind).1
    rw [Option.some_or, h.current_complete hroute hlive (hspare old hfind) (beq_iff_eq.mp hrejoins.2)]
  | none =>
    rw [Option.none_or]
    cases hcur : s.current name spec with
    | none => rfl
    | some old =>
      rw [Option.filter_some, if_pos]
      rw [Bool.and_eq_true]
      exact ⟨hheld old hcur, beq_iff_eq.mpr (h.current_sound hroute hcur).2.1⟩

end Held

/-! ## Steps that leave the tables alone -/

theorem complete_same (s : ShareServer) (future result : Option Nat) :
    SamePlaces s (s.complete future result) := by
  unfold complete
  split
  · exact .refl s
  · split
    · exact .of_eq rfl rfl rfl rfl rfl rfl
    · exact .refl s

theorem createFuture_same (s : ShareServer) (r : Nat) : SamePlaces s (s.createFuture r) :=
  .update rfl rfl rfl rfl rfl rfl ⟨rfl, rfl, rfl⟩

theorem renewFuture_same (s : ShareServer) (r : Nat) : SamePlaces s (s.renewFuture r) := by
  unfold renewFuture
  split
  · exact .refl s
  · exact createFuture_same s r

theorem activate_same (s : ShareServer) (r : Nat) : SamePlaces s (s.activate r) := by
  unfold activate
  split
  · exact .refl s
  · exact .update rfl rfl rfl rfl rfl rfl ⟨rfl, rfl, rfl⟩

theorem completeReattach_same (s : ShareServer) (r : Nat) : SamePlaces s (s.completeReattach r) := by
  unfold completeReattach
  dsimp only
  split
  · exact .refl s
  · split
    · exact .refl s
    · refine SamePlaces.trans ?_ (complete_same ..)
      exact .update rfl rfl rfl rfl rfl rfl ⟨rfl, rfl, rfl⟩

theorem install_same (s : ShareServer) (r : Nat) (checksum : Option Checksum) :
    SamePlaces s (s.install r checksum) := by
  have hlast : ∀ t : ShareServer, SamePlaces t
      { t.modify r fun reg =>
          { reg with ws := reg.ws + 1, fingerprint := some (t.fingerprints + 1) } with
        fingerprints := t.fingerprints + 1 } := fun t =>
    .update rfl rfl rfl rfl rfl rfl ⟨rfl, rfl, rfl⟩
  unfold install
  dsimp only
  split
  · exact hlast s
  · refine SamePlaces.trans ?_ (hlast _)
    exact .update rfl rfl rfl rfl rfl rfl ⟨rfl, rfl, rfl⟩

theorem deliver_same (s : ShareServer) (r seq : Nat) (checksum : Option Checksum)
    (expected : Option Nat) : SamePlaces s (s.deliver r seq checksum expected).2 := by
  unfold deliver
  dsimp only
  split
  · exact .refl s
  · split
    · exact .refl s
    · exact install_same s r checksum

theorem enterPut_same (s : ShareServer) (r : Nat) : SamePlaces s (s.enterPut r).1 := by
  unfold enterPut
  dsimp only
  split
  · split
    · exact .refl s
    · exact createFuture_same s r
  · split
    · exact .refl s
    · exact .refl s

theorem installPut_same (s : ShareServer) (r : Nat) (marker : Option Nat) (value : Option Checksum) :
    SamePlaces s (s.installPut r marker value).1 := by
  unfold installPut
  split
  · exact .refl s
  · dsimp only
    split
    · exact .refl s
    · split
      · exact .refl s
      · exact install_same s r _

theorem holdUntil_same (deadline : Nat) (s : ShareServer) (r : Nat) :
    SamePlaces s (holdUntil deadline s r) := by
  refine SamePlaces.trans ?_ (renewFuture_same ..)
  exact .update rfl rfl rfl rfl rfl rfl ⟨rfl, rfl, rfl⟩

theorem holdRegistration_same (s : ShareServer) (r : Nat) : SamePlaces s (s.holdRegistration r) := by
  unfold holdRegistration
  split
  · exact .refl s
  · refine SamePlaces.trans ?_ (renewFuture_same ..)
    exact .update rfl rfl rfl rfl rfl rfl ⟨rfl, rfl, rfl⟩

theorem beginCloseNamespace_same (s : ShareServer) (name : String) (owner : Owner) :
    SamePlaces s (s.beginCloseNamespace name owner) := by
  unfold beginCloseNamespace
  split
  · exact .refl s
  · split
    · exact .refl s
    · refine SamePlaces.trans ?_ (.foldl renewFuture_same ..)
      exact .modifyNamespace s name fun _ => rfl

theorem holdNamespace_same (s : ShareServer) (name : String) (owner : Owner) (timeout : Nat) :
    SamePlaces s (s.holdNamespace name owner timeout) := by
  unfold holdNamespace
  split
  · exact .refl s
  · split
    · exact .refl s
    · refine SamePlaces.trans ?_ (.foldl (holdUntil_same _) ..)
      exact .modifyNamespace s name fun _ => rfl

theorem takeOver_same (s : ShareServer) (name : String) (owner : Owner) :
    SamePlaces s (s.takeOver name owner) := by
  unfold takeOver
  split
  · exact .modifyNamespace s name fun _ => rfl
  · exact .refl s

theorem adoptHeldRegistration_same (s : ShareServer) (r held : Nat) :
    SamePlaces s (s.adoptHeldRegistration r held) :=
  .update rfl rfl rfl rfl rfl rfl ⟨rfl, rfl, rfl⟩

theorem adoptIfHeld_same (s : ShareServer) (r : Nat) : SamePlaces s (s.adoptIfHeld r) := by
  unfold adoptIfHeld
  dsimp only
  split
  · exact .refl s
  · exact adoptHeldRegistration_same ..

theorem raiseMarker_same (s : ShareServer) (r : Nat) (olds : List Nat) :
    SamePlaces s (s.raiseMarker r olds) :=
  .update rfl rfl rfl rfl rfl rfl ⟨rfl, rfl, rfl⟩

theorem takeOverAll_same (registrations : List Nat) :
    ∀ s : ShareServer, SamePlaces s (takeOverAll registrations s).2 := by
  induction registrations with
  | nil => exact fun s => .refl s
  | cons r registrations ih =>
    intro s
    unfold takeOverAll
    dsimp only
    split
    · exact .refl s
    · exact (takeOver_same ..).trans (ih _)

theorem unregister_same (s : ShareServer) (r : Nat) (closeNamespace : Bool) :
    SamePlaces s (s.unregister r closeNamespace) := .of_eq rfl rfl rfl rfl rfl rfl

theorem setPut_same (s : ShareServer) (i : Nat) (state : PutState) :
    SamePlaces s (s.setPut i state) := .of_eq rfl rfl rfl rfl rfl rfl

/-! ## Removing several -/

theorem removeRegistration_live (s : ShareServer) (r j : Nat) :
    (s.removeRegistration r).Live j ↔ s.Live j ∧ j ≠ r := by
  unfold removeRegistration
  dsimp only
  split
  · rename_i hclosed
    refine ⟨fun hl => ⟨hl, ?_⟩, fun hl => hl.1⟩
    rintro rfl
    rw [hl.1] at hclosed
    cases hclosed
  · split
    · exact removeRecords_live s r j
    · exact removeRecords_live s r j

theorem removeRegistration_place (s : ShareServer) (r : Nat) :
    (s.removeRegistration r).place = s.place := by
  unfold removeRegistration
  dsimp only
  split
  · rfl
  · split
    · exact removeRecords_place s r
    · exact removeRecords_place s r

/-- Only the removal of a staged registration may drop its namespace. -/
theorem removeRegistration_spaces {r : Nat} (hr : (s.registrations r).staged = false) {name : String}
    (hname : (s.namespaces.lookup name).isSome = true) :
    ((s.removeRegistration r).namespaces.lookup name).isSome = true := by
  unfold removeRegistration
  dsimp only
  split
  · exact hname
  · rw [hr, Bool.false_and, if_neg (by simp)]
    show ((Index.adjust s.namespaces _ _).lookup name).isSome = true
    rw [Index.lookup_adjust]
    split
    · rwa [Option.isSome_map]
    · exact hname

/-- A registration is removed, after steps that leave the tables alone. -/
theorem expire_live (s : ShareServer) (r j : Nat) : (s.expire r).Live j ↔ s.Live j ∧ j ≠ r := by
  unfold expire
  rw [removeRegistration_live, (complete_same ..).live]

theorem Indexed.expire (h : s.Indexed spare lost) (r : Nat) : (s.expire r).Indexed spare lost :=
  ((complete_same ..).indexed h).removeRegistration r

theorem Sane.expire (h : s.Sane) (r : Nat) : (s.expire r).Sane :=
  ((complete_same ..).sane h).removeRegistration r

theorem foldl_live {f : ShareServer → Nat → ShareServer}
    (hf : ∀ s r j, (f s r).Live j ↔ s.Live j ∧ j ≠ r) (l : List Nat) :
    ∀ (s : ShareServer) (j : Nat), (l.foldl f s).Live j ↔ s.Live j ∧ j ∉ l := by
  induction l with
  | nil => exact fun s j => ⟨fun h => ⟨h, by simp⟩, fun h => h.1⟩
  | cons r l ih =>
    intro s j
    rw [List.foldl_cons, ih, hf, List.mem_cons, not_or]
    exact and_assoc

theorem Indexed.foldl {f : ShareServer → Nat → ShareServer}
    (hf : ∀ s r, s.Indexed spare lost → (f s r).Indexed spare lost) (l : List Nat) :
    ∀ s : ShareServer, s.Indexed spare lost → (l.foldl f s).Indexed spare lost := by
  induction l with
  | nil => exact fun s h => h
  | cons r l ih => exact fun s h => ih _ (hf s r h)

theorem Sane.foldl {f : ShareServer → Nat → ShareServer} (hf : ∀ s r, s.Sane → (f s r).Sane)
    (l : List Nat) : ∀ s : ShareServer, s.Sane → (l.foldl f s).Sane := by
  induction l with
  | nil => exact fun s h => h
  | cons r l ih => exact fun s h => ih _ (hf s r h)

/-! ## Reserving -/

/-- A new registration is entered, and the held one at its URL makes way for it. -/
theorem placeUnstaged_held (s : ShareServer) (r : Nat) : s.placeUnstaged r =
    ((match s.heldRegistrationFor (s.place r).inNamespace (s.place r).spec (s.place r).route with
      | none => s
      | some held => (s.adoptHeldRegistration r held).removeRegistration held).takeOver
        (s.place r).inNamespace (s.place r).owner).putRecord r := rfl

theorem Indexed.placeUnstaged {r : Nat}
    (h : s.Indexed (fun j => j = r) fun j => j = r ∨ lost j) (hr : s.Live r)
    (hns : (s.namespaces.lookup (s.place r).inNamespace).isSome = true)
    (hfresh : ∀ old, s.recordOf (s.place r).inNamespace (s.place r).spec.path = some old → old ≠ r)
    (hheld : ∀ old, s.current (s.place r).inNamespace (s.place r).spec = some old →
      old ≠ r ∧ (s.registrations old).held = true)
    (hrec : ∀ old, s.recordOf (s.place r).inNamespace (s.place r).spec.path = some old → ¬ lost old →
      s.current (s.place r).inNamespace (s.place r).spec = some old) :
    (s.placeUnstaged r).Indexed (fun _ => False) lost := by
  have hcur := h.held_eq_current (s.place r).routed hfresh fun old ho => (hheld old ho).2
  -- the state in which the registration is entered
  obtain ⟨t, ht, hti, htlive, htplace, htns⟩ : ∃ t : ShareServer,
      s.placeUnstaged r = t.putRecord r ∧ t.Indexed (fun j => j = r) (fun j => j = r ∨ lost j) ∧
      (∀ j, t.Live j ↔
        s.Live j ∧ s.current (s.place r).inNamespace (s.place r).spec ≠ some j) ∧
      (∀ j, t.place j = s.place j) ∧
      (t.namespaces.lookup (s.place r).inNamespace).isSome = true := by
    rw [placeUnstaged_held, hcur]
    cases hc : s.current (s.place r).inNamespace (s.place r).spec with
    | none =>
      have hsame := takeOver_same s (s.place r).inNamespace (s.place r).owner
      refine ⟨_, rfl, hsame.indexed h, fun j => ?_, fun j => (hsame.places j).1, hsame.spaces _ hns⟩
      rw [hsame.live]
      exact ⟨fun hl => ⟨hl, by simp⟩, fun hl => hl.1⟩
    | some old =>
      have hadopt := adoptHeldRegistration_same s r old
      have hsame := takeOver_same ((s.adoptHeldRegistration r old).removeRegistration old)
        (s.place r).inNamespace (s.place r).owner
      have hold : s.Live old := (h.current_sound (s.place r).routed hc).1
      have hstaged : ((s.adoptHeldRegistration r old).registrations old).staged = false := by
        rw [(hadopt.places old).2.1]
        exact hold.2
      refine ⟨_, rfl, hsame.indexed ((hadopt.indexed h).removeRegistration old), fun j => ?_,
        fun j => ?_, hsame.spaces _ (removeRegistration_spaces hstaged (hadopt.spaces _ hns))⟩
      · rw [hsame.live, removeRegistration_live, hadopt.live]
        refine and_congr_right fun _ => ?_
        rw [ne_eq, ne_eq, Option.some.injEq, eq_comm]
      · rw [(hsame.places j).1, removeRegistration_place, (hadopt.places j).1]
  have htr : t.Live r := by
    refine (htlive r).mpr ⟨hr, fun hc => ?_⟩
    exact (hheld r hc).1 rfl
  rw [ht]
  have hp := hti.putRecord htr (by rwa [htplace])
  rw [htplace] at hp
  -- whoever is found in the tables then has been there before, and has made way
  have hnone : ∀ j, j ≠ r → t.current (s.place r).inNamespace (s.place r).spec ≠ some j := by
    intro j hj hc
    obtain ⟨hl, hroute, -⟩ := hti.current_sound (s.place r).routed hc
    obtain ⟨hl', hne⟩ := (htlive j).mp hl
    rw [htplace] at hroute
    exact hne (h.current_complete (s.place r).routed hl' hj hroute)
  have hspare : ∀ j, j ≠ r ∧ (j = r ∨
      t.current (s.place r).inNamespace (s.place r).spec = some j) → False :=
    fun j hj => hj.2.elim hj.1 (hnone j hj.1)
  refine ⟨hp.top.weaken fun j _ => hspare j, hp.record.weaken fun j _ => hspare j,
    hp.table.weaken fun j _ hj => ?_⟩
  rcases hj.2 with (hjr | hlost) | hfind
  · exact absurd hjr hj.1
  · exact hlost
  · by_contra hlost
    have hsound := hti.table.sound (k := ((s.place r).inNamespace, (s.place r).spec.path)) hfind
    obtain ⟨hl', hne⟩ := (htlive j).mp hsound.1
    rw [htplace] at hsound
    exact hne (hrec j (h.table.complete hl' (fun hs => hs.elim hj.1 hlost) hsound.2) hlost)

/-- A reservation that is made passes the checks. -/
theorem reserve_cases {name : String} {spec : ServedSpec} {owner : Option Owner}
    {replaces : List Nat} {staged : Bool}
    (h : s.reserve name spec owner replaces staged = .ok s') :
    ∃ (place : Reservation) (reg : ShareRegistration), reg = { place with
        staged, marker := (s.claimNamespace name owner staged).markerFloors place.route } ∧
      place.inNamespace = name ∧ place.spec = spec ∧ place.replaces = replaces ∧
      place.owner = (s.claimNamespace name owner staged).registrationOwner name owner ∧
      (∀ check ∈ s.reservationChecks name spec place.route owner replaces [], check.1 = false) ∧
      s' = if staged then
          { (s.claimNamespace name owner staged).allocate reg with
            stagedReservations := s.stagedReservations ++ [s.registrationCount] }
        else ((s.claimNamespace name owner staged).allocate reg).placeUnstaged s.registrationCount := by
  have hlist : (s.claimNamespace name owner staged).stagedReservations = s.stagedReservations :=
    (claimNamespace_same ..).staged
  unfold reserve at h
  split at h
  · cases h
  · split at h
    · cases h
    · split at h
      · cases h
      · rename_i route hroute
        split at h
        · cases h
        · rename_i hchecks
          refine ⟨⟨name, _, spec, route, replaces, hroute⟩, _, rfl, rfl, rfl, rfl, rfl,
            firstError_ok hchecks, ?_⟩
          dsimp only at h
          split at h
          · rename_i hstaged
            rw [if_pos hstaged, ← hlist]
            exact (Except.ok.inj h).symm
          · rename_i hstaged
            rw [if_neg hstaged]
            exact (Except.ok.inj h).symm

end ShareServer

end SeamlessWorkflow
