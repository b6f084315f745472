import SeamlessWorkflow.Proofs.ShareRuns

/-!
# Versions of a shared value

A version is a marker with the checksum that a URL shows under it. Every writer raises the marker, and
what is removed leaves its marker behind as a floor.
-/

namespace SeamlessWorkflow

/-! ## Versions -/

/-- A marker, and the checksum that is shown under it. -/
abbrev Version := Nat × Option Checksum

/-- A version is followed by itself and by versions with a higher marker. -/
def Leads (v w : Version) : Prop := v.1 < w.1 ∨ v = w

theorem Leads.refl (v : Version) : Leads v v := Or.inr rfl

theorem Leads.le {v w : Version} (h : Leads v w) : v.1 ≤ w.1 := by
  rcases h with hlt | rfl
  · omega
  · omega

/-- A value that stays may have its marker raised. -/
theorem Leads.raise {v w x : Version} (h : Leads v w) (hle : w.1 ≤ x.1) (hvalue : x.2 = w.2) :
    Leads v x := by
  rcases h with hlt | rfl
  · exact Or.inl (by omega)
  · by_cases hlt : v.1 < x.1
    · exact Or.inl hlt
    · exact Or.inr (Prod.ext (by omega) hvalue.symm)

theorem Leads.bump {v w x : Version} (h : Leads v w) (hlt : w.1 < x.1) : Leads v x :=
  Or.inl (Nat.lt_of_le_of_lt h.le hlt)

theorem Leads.eq_of_marker {v w : Version} (h : Leads v w) (hm : w.1 = v.1) : w.2 = v.2 := by
  rcases h with hlt | rfl
  · omega
  · rfl

namespace ShareServer

variable {s s' s'' : ShareServer} {url : Route} {v : Version} {spare lost : Nat → Prop}

def version (s : ShareServer) (r : Nat) : Version :=
  ((s.registrations r).marker, (s.registrations r).checksum)

/-- A state comes after a URL has shown a version. -/
structure Follows (s : ShareServer) (url : Route) (v : Version) : Prop where
  published : ∀ r, (s.registrations r).active = true → (s.registrations r).staged = false
  stamped : ∀ r, (s.version r).2 ≠ none → 0 < (s.version r).1 ∧ 0 < s.markerFloors (s.place r).route
  live : ∀ r, s.Live r → (s.place r).route = url → Leads v (s.version r)
  gone : (∀ r, s.Live r → (s.place r).route ≠ url) → v.1 ≤ s.markerFloors url
  origin : v.1 = 0 → v.2 = none

/-! ## Quiet steps -/

/-- Versions, and who shows them, are as before. -/
structure Quiet (s s' : ShareServer) : Prop where
  place : ∀ r, s'.place r = s.place r
  version : ∀ r, s'.version r = s.version r
  floors : s'.markerFloors = s.markerFloors
  live : ∀ r, s'.Live r ↔ s.Live r
  published : (∀ r, (s.registrations r).active = true → (s.registrations r).staged = false) →
    ∀ r, (s'.registrations r).active = true → (s'.registrations r).staged = false

namespace Quiet

theorem of_eq (hregs : s'.registrations = s.registrations)
    (hfloors : s'.markerFloors = s.markerFloors) : Quiet s s' := by
  refine ⟨fun r => ?_, fun r => ?_, hfloors, fun r => ?_, fun h r => ?_⟩
  · unfold ShareServer.place
    rw [hregs]
  · unfold ShareServer.version
    rw [hregs]
  · unfold Live
    rw [hregs]
  · rw [hregs]
    exact h r

theorem trans (h : Quiet s s') (h' : Quiet s' s'') : Quiet s s'' where
  place r := (h'.place r).trans (h.place r)
  version r := (h'.version r).trans (h.version r)
  floors := h'.floors.trans h.floors
  live r := (h'.live r).trans (h.live r)
  published hp := h'.published (h.published hp)

theorem foldl {f : ShareServer → Nat → ShareServer} (hf : ∀ s r, Quiet s (f s r)) :
    ∀ (l : List Nat) (s : ShareServer), Quiet s (l.foldl f s)
  | [], _ => of_eq rfl rfl
  | r :: l, s => (hf s r).trans (foldl hf l (f s r))

/-- A registration may change in what does not belong to its version. -/
theorem update {r : Nat} {reg : ShareRegistration}
    (hregs : s'.registrations = Function.update s.registrations r reg)
    (hfloors : s'.markerFloors = s.markerFloors)
    (hplace : reg.toReservation = s.place r) (hversion : (reg.marker, reg.checksum) = s.version r)
    (hclosed : reg.closed = (s.registrations r).closed)
    (hstaged : reg.staged = (s.registrations r).staged)
    (hactive : reg.active = true → reg.staged = false ∨ (s.registrations r).active = true) :
    Quiet s s' := by
  refine ⟨fun i => ?_, fun i => ?_, hfloors, fun i => ?_, fun h i => ?_⟩
  · unfold ShareServer.place
    rw [hregs, Function.update_apply]
    split
    · rename_i hi
      rw [hi]
      exact hplace
    · rfl
  · unfold ShareServer.version
    rw [hregs, Function.update_apply]
    split
    · rename_i hi
      rw [hi]
      exact hversion
    · rfl
  · unfold Live
    rw [hregs, Function.update_apply]
    split
    · rename_i hi
      rw [hi, hclosed, hstaged]
    · exact Iff.rfl
  · rw [hregs, Function.update_apply]
    split
    · intro ha
      rcases hactive ha with hs | ha
      · exact hs
      · rw [hstaged]
        exact h r ha
    · exact h i

theorem complete (s : ShareServer) (future result : Option Nat) : Quiet s (s.complete future result) := by
  unfold ShareServer.complete
  split
  · exact of_eq rfl rfl
  · split
    · exact of_eq rfl rfl
    · exact of_eq rfl rfl

theorem createFuture (s : ShareServer) (r : Nat) : Quiet s (s.createFuture r) :=
  update rfl rfl rfl rfl rfl rfl Or.inr

theorem renewFuture (s : ShareServer) (r : Nat) : Quiet s (s.renewFuture r) := by
  unfold ShareServer.renewFuture
  split
  · exact of_eq rfl rfl
  · exact createFuture s r

theorem activate {r : Nat} (hr : (s.registrations r).staged = false) : Quiet s (s.activate r) := by
  unfold ShareServer.activate
  split
  · exact of_eq rfl rfl
  · exact update rfl rfl rfl rfl rfl rfl fun _ => Or.inl hr

theorem completeReattach (s : ShareServer) (r : Nat) : Quiet s (s.completeReattach r) := by
  unfold ShareServer.completeReattach
  dsimp only
  split
  · exact of_eq rfl rfl
  · split
    · exact of_eq rfl rfl
    · refine trans ?_ (complete ..)
      exact update rfl rfl rfl rfl rfl rfl Or.inr

theorem enterPut (s : ShareServer) (r : Nat) : Quiet s (s.enterPut r).1 := by
  unfold ShareServer.enterPut
  dsimp only
  split
  · split
    · exact of_eq rfl rfl
    · exact createFuture s r
  · split
    · exact of_eq rfl rfl
    · exact of_eq rfl rfl

theorem holdUntil (deadline : Nat) (s : ShareServer) (r : Nat) : Quiet s (holdUntil deadline s r) := by
  refine trans ?_ (renewFuture ..)
  exact update rfl rfl rfl rfl rfl rfl fun ha => by cases ha

theorem holdRegistration (s : ShareServer) (r : Nat) : Quiet s (s.holdRegistration r) := by
  unfold ShareServer.holdRegistration
  split
  · exact of_eq rfl rfl
  · refine trans ?_ (renewFuture ..)
    exact update rfl rfl rfl rfl rfl rfl fun ha => by cases ha

theorem beginCloseNamespace (s : ShareServer) (name : String) (owner : Owner) :
    Quiet s (s.beginCloseNamespace name owner) := by
  unfold ShareServer.beginCloseNamespace
  split
  · exact of_eq rfl rfl
  · split
    · exact of_eq rfl rfl
    · refine trans ?_ (foldl renewFuture ..)
      exact of_eq rfl rfl

theorem holdNamespace (s : ShareServer) (name : String) (owner : Owner) (timeout : Nat) :
    Quiet s (s.holdNamespace name owner timeout) := by
  unfold ShareServer.holdNamespace
  split
  · exact of_eq rfl rfl
  · split
    · exact of_eq rfl rfl
    · refine trans ?_ (foldl (holdUntil _) ..)
      exact of_eq rfl rfl

theorem endHold (s : ShareServer) (name : String) : Quiet s (s.endHold name) := by
  unfold ShareServer.endHold
  dsimp only
  split
  · exact of_eq rfl rfl
  · split
    · exact of_eq rfl rfl
    · split
      · exact of_eq rfl rfl
      · exact of_eq rfl rfl

theorem claimNamespace (s : ShareServer) (name : String) (owner : Option Owner) (staged : Bool) :
    Quiet s (s.claimNamespace name owner staged) := by
  unfold ShareServer.claimNamespace
  split
  · exact of_eq rfl rfl
  · exact of_eq rfl rfl

theorem takeOver (s : ShareServer) (name : String) (owner : Owner) : Quiet s (s.takeOver name owner) := by
  unfold ShareServer.takeOver
  split
  · exact of_eq rfl rfl
  · exact of_eq rfl rfl

theorem takeOverAll (registrations : List Nat) :
    ∀ s : ShareServer, Quiet s (takeOverAll registrations s).2 := by
  induction registrations with
  | nil => exact fun s => of_eq rfl rfl
  | cons r registrations ih =>
    intro s
    unfold ShareServer.takeOverAll
    dsimp only
    split
    · exact of_eq rfl rfl
    · exact trans (takeOver ..) (ih _)

end Quiet

theorem takeOver_registrations (s : ShareServer) (name : String) (owner : Owner) :
    (s.takeOver name owner).registrations = s.registrations := by
  unfold takeOver
  split <;> rfl

theorem takeOverAll_registrations (registrations : List Nat) : ∀ s : ShareServer,
    (takeOverAll registrations s).2.registrations = s.registrations := by
  induction registrations with
  | nil => exact fun s => rfl
  | cons r registrations ih =>
    intro s
    unfold takeOverAll
    dsimp only
    split
    · rfl
    · exact (ih _).trans (takeOver_registrations ..)

namespace Follows

theorem quiet (h : s.Follows url v) (hq : Quiet s s') : s'.Follows url v where
  published := hq.published h.published
  stamped r hr := by
    rw [hq.version, hq.place, hq.floors] at *
    exact h.stamped r hr
  live r hr hroute := by
    rw [hq.version]
    rw [hq.place] at hroute
    exact h.live r ((hq.live r).mp hr) hroute
  gone hgone := by
    rw [hq.floors]
    refine h.gone fun r hr => ?_
    rw [← hq.place]
    exact hgone r ((hq.live r).mpr hr)
  origin := h.origin

/-! ## Writers -/

/-- A published registration is given a version that follows. -/
theorem write (h : s.Follows url v) {r : Nat} (hr : s.Live r) {reg : ShareRegistration}
    (hregs : s'.registrations = Function.update s.registrations r reg)
    (hfloors : s'.markerFloors = Function.update s.markerFloors (s.place r).route reg.marker)
    (hplace : reg.toReservation = s.place r) (hclosed : reg.closed = false)
    (hstaged : reg.staged = false) (hmarker : (s.version r).1 < reg.marker) : s'.Follows url v := by
  have hpos : 0 < reg.marker := Nat.lt_of_le_of_lt (Nat.zero_le _) hmarker
  have hplaces : ∀ i, s'.place i = s.place i := by
    intro i
    unfold ShareServer.place
    rw [hregs, Function.update_apply]
    split
    · rename_i hi
      rw [hi]
      exact hplace
    · rfl
  have hversion : ∀ i, s'.version i = if i = r then (reg.marker, reg.checksum) else s.version i := by
    intro i
    unfold ShareServer.version
    rw [hregs, Function.update_apply]
    split
    · rfl
    · rfl
  have hlive : ∀ i, s'.Live i ↔ s.Live i := by
    intro i
    unfold Live
    rw [hregs, Function.update_apply]
    split
    · rename_i hi
      rw [hi, hclosed, hstaged]
      exact ⟨fun _ => hr, fun _ => ⟨rfl, rfl⟩⟩
    · exact Iff.rfl
  refine ⟨fun i => ?_, fun i hi => ?_, fun i hi hroute => ?_, fun hgone => ?_, h.origin⟩
  · rw [hregs, Function.update_apply]
    split
    · exact fun _ => hstaged
    · exact h.published i
  · rw [hplaces, hfloors, Function.update_apply]
    rw [hversion] at hi ⊢
    split at hi
    · rename_i hir
      rw [if_pos hir, hir, if_pos rfl]
      exact ⟨hpos, hpos⟩
    · rename_i hir
      rw [if_neg hir]
      refine ⟨(h.stamped i hi).1, ?_⟩
      split
      · exact hpos
      · exact (h.stamped i hi).2
  · rw [hplaces] at hroute
    have hold := h.live i ((hlive i).mp hi) hroute
    rw [hversion]
    split
    · rename_i hir
      subst hir
      exact hold.bump hmarker
    · exact hold
  · have hne : (s.place r).route ≠ url := by
      rw [← hplaces]
      exact hgone r ((hlive r).mpr hr)
    rw [hfloors, Function.update_of_ne (Ne.symm hne)]
    refine h.gone fun i hi => ?_
    rw [← hplaces]
    exact hgone i ((hlive i).mpr hi)

theorem install (h : s.Follows url v) {r : Nat} (hr : s.Live r) (checksum : Option Checksum) :
    (s.install r checksum).Follows url v := by
  have hend : ∀ t : ShareServer, Quiet t
      { t.modify r fun reg =>
          { reg with ws := reg.ws + 1, fingerprint := some (t.fingerprints + 1) } with
        fingerprints := t.fingerprints + 1 } := fun t => .update rfl rfl rfl rfl rfl rfl Or.inr
  unfold ShareServer.install
  dsimp only
  split
  · exact h.quiet (hend s)
  · refine quiet ?_ (hend _)
    exact h.write hr rfl rfl rfl hr.1 hr.2 (Nat.lt_succ_self _)

/-- Only registrations that have been published take values. -/
theorem live_of_active (h : s.Follows url v) {r : Nat}
    (hr : ((s.registrations r).closed || !(s.registrations r).active) = false) : s.Live r := by
  rw [Bool.or_eq_false_iff] at hr
  exact ⟨hr.1, h.published r (by simpa using hr.2)⟩

theorem deliver (h : s.Follows url v) (r seq : Nat) (checksum : Option Checksum)
    (expected : Option Nat) : (s.deliver r seq checksum expected).2.Follows url v := by
  unfold ShareServer.deliver
  dsimp only
  split
  · exact h
  · rename_i hr
    split
    · exact h
    · exact h.install (h.live_of_active (Bool.eq_false_iff.mpr hr)) checksum

theorem installPut (h : s.Follows url v) (r : Nat) (marker : Option Nat) (value : Option Checksum) :
    (s.installPut r marker value).1.Follows url v := by
  unfold ShareServer.installPut
  split
  · exact h
  · dsimp only
    split
    · exact h
    · rename_i hr
      split
      · exact h
      · exact h.install (h.live_of_active (Bool.eq_false_iff.mpr hr)) _

/-! ## Removing -/

theorem removeRecords (h : s.Follows url v) (r : Nat) : (s.removeRecords r).Follows url v := by
  have hregs : ∀ i, (s.removeRecords r).registrations i = if i = r then
      { s.registrations r with closed := true, active := false } else s.registrations i :=
    fun i => modify_registrations s r i fun reg => { reg with closed := true, active := false }
  have hversion : ∀ i, (s.removeRecords r).version i = s.version i := by
    intro i
    unfold ShareServer.version
    rw [hregs]
    split
    · rename_i hi
      rw [hi]
    · rfl
  have hfloor : ∀ route, s.markerFloors route ≤ (s.removeRecords r).markerFloors route := by
    intro route
    show _ ≤ Function.update s.markerFloors _ _ route
    rw [Function.update_apply]
    split
    · rename_i hroute
      rw [hroute]
      omega
    · exact Nat.le_refl _
  refine ⟨fun i => ?_, fun i hi => ?_, fun i hi hroute => ?_, fun hgone => ?_, h.origin⟩
  · rw [hregs]
    split
    · exact fun ha => by cases ha
    · exact h.published i
  · rw [hversion] at hi ⊢
    rw [removeRecords_place]
    have hs := h.stamped i hi
    exact ⟨hs.1, Nat.lt_of_lt_of_le hs.2 (hfloor _)⟩
  · rw [removeRecords_place] at hroute
    rw [hversion]
    exact h.live i ((removeRecords_live s r i).mp hi).1 hroute
  · rw [removeRecords_place] at hgone
    by_cases hr : s.Live r ∧ (s.place r).route = url
    · -- the marker of what is removed becomes the floor
      have hle := (h.live r hr.1 hr.2).le
      have hmarker : (s.version r).1 ≤ (s.removeRecords r).markerFloors url := by
        show (s.registrations r).marker ≤ Function.update s.markerFloors (s.place r).route _ url
        rw [hr.2, Function.update_self]
        exact Nat.le_max_right _ _
      omega
    · refine Nat.le_trans (h.gone fun i hi hroute => ?_) (hfloor url)
      have hir : i ≠ r := fun hir => hr (hir ▸ ⟨hi, hroute⟩)
      exact hgone i ((removeRecords_live s r i).mpr ⟨hi, hir⟩) hroute

theorem removeRegistration (h : s.Follows url v) (r : Nat) :
    (s.removeRegistration r).Follows url v := by
  unfold ShareServer.removeRegistration
  dsimp only
  split
  · exact h
  · split
    · exact (h.removeRecords r).quiet (.of_eq rfl rfl)
    · exact h.removeRecords r

theorem expire (h : s.Follows url v) (r : Nat) : (s.expire r).Follows url v :=
  (h.quiet (.complete ..)).removeRegistration r

theorem foldl {f : ShareServer → Nat → ShareServer}
    (hf : ∀ s r, s.Follows url v → (f s r).Follows url v) (l : List Nat) :
    ∀ s : ShareServer, s.Follows url v → (l.foldl f s).Follows url v := by
  induction l with
  | nil => exact fun s h => h
  | cons r l ih => exact fun s h => ih _ (hf s r h)

/-! ## Reserving -/

/-- A new registration has a version that follows if its URL has shown one, and a floor if it has a
checksum. -/
theorem allocate (h : s.Follows url v) (hs : s.Sane) {reg : ShareRegistration}
    (hactive : reg.active = false)
    (hstamped : reg.checksum ≠ none → 0 < reg.marker ∧ 0 < s.markerFloors reg.route)
    (hlive : reg.staged = false → reg.route = url → Leads v (reg.marker, reg.checksum)) :
    (s.allocate reg).Follows url v := by
  have hregs := allocate_registrations s reg
  have hold : ∀ i, s.Live i → i ≠ s.registrationCount := by
    rintro i hi rfl
    exact hs.not_live hi
  refine ⟨fun i => ?_, fun i => ?_, fun i hi hroute => ?_, fun hgone => ?_, h.origin⟩
  · rw [hregs]
    split
    · rw [hactive]
      exact fun ha => by cases ha
    · exact h.published i
  · unfold ShareServer.version ShareServer.place
    rw [hregs]
    split
    · exact hstamped
    · exact h.stamped i
  · unfold Live at hi
    unfold ShareServer.place at hroute
    unfold ShareServer.version
    rw [hregs] at hi hroute ⊢
    split at hi
    · rename_i hir
      rw [if_pos hir] at hroute ⊢
      exact hlive hi.2 hroute
    · rename_i hir
      rw [if_neg hir] at hroute ⊢
      exact h.live i hi hroute
  · refine h.gone fun i hi => ?_
    have hne := hold i hi
    have hgone := hgone i (by
      unfold Live
      rw [hregs, if_neg hne]
      exact hi)
    unfold ShareServer.place at hgone
    rw [hregs, if_neg hne] at hgone
    exact hgone

end Follows

/-! ## Held registrations -/

/-- The held registration of a URL is found in one of two tables. -/
theorem heldRegistrationFor_found {name : String} {spec : ServedSpec} {route : Route} {held : Nat}
    (h : s.heldRegistrationFor name spec route = some held) :
    (s.recordOf name spec.path = some held ∨ s.current name spec = some held) ∧
      (s.place held).route = route := by
  unfold heldRegistrationFor at h
  dsimp only at h
  rcases Option.or_eq_some_iff.mp h with hrec | ⟨-, hcur⟩
  · obtain ⟨hfind, hrejoins⟩ := Option.filter_eq_some_iff.mp hrec
    rw [Bool.and_eq_true] at hrejoins
    exact ⟨Or.inl hfind, beq_iff_eq.mp hrejoins.2⟩
  · obtain ⟨hfind, hrejoins⟩ := Option.filter_eq_some_iff.mp hcur
    rw [Bool.and_eq_true] at hrejoins
    exact ⟨Or.inr hfind, beq_iff_eq.mp hrejoins.2⟩

theorem Indexed.found_live (h : s.Indexed spare lost) {name : String} {spec : ServedSpec} {held : Nat}
    (hfound : s.recordOf name spec.path = some held ∨ s.current name spec = some held) :
    s.Live held := by
  rcases hfound with hrec | hcur
  · exact (h.table.sound (k := (name, spec.path)) hrec).1
  · unfold current at hcur
    split at hcur
    · exact (h.top.sound hcur).1
    · exact (h.record.sound hcur).1

/-- Does a URL have a held registration? -/
def rejoins (s : ShareServer) (name : String) (spec : ServedSpec) : Bool :=
  (s.current name spec).any fun r => (s.registrations r).held

theorem heldRegistrationFor_isSome (h : s.Indexed spare lost) {name : String} {spec : ServedSpec}
    {route : Route} (hroute : routeFor name spec = .ok route) (hrejoins : s.rejoins name spec = true) :
    s.heldRegistrationFor name spec route ≠ none := by
  obtain ⟨held, hcur, hheld⟩ := (Option.any_eq_true ..).mp hrejoins
  have hsame := (h.current_sound hroute hcur).2.1
  unfold heldRegistrationFor
  dsimp only
  rw [hcur, Option.filter_some, if_pos]
  · rw [ne_eq, Option.or_eq_none_iff]
    rintro ⟨-, hnone⟩
    cases hnone
  · rw [Bool.and_eq_true]
    exact ⟨hheld, beq_iff_eq.mpr hsame⟩

namespace Follows

/-- A new registration that finds a held one at its URL adopts its version. -/
theorem adopt (h : s.Follows url v) (hs : s.Sane) {reg : ShareRegistration} {held : Nat}
    (hactive : reg.active = false) (hheld : s.Live held)
    (hroute : (s.place held).route = reg.route) :
    ((s.allocate reg).adoptHeldRegistration s.registrationCount held).Follows url v := by
  have hne : held ≠ s.registrationCount := by
    rintro rfl
    exact hs.not_live hheld
  let adopted : ShareRegistration :=
    { reg with
      checksum := (s.registrations held).checksum
      marker := max reg.marker (s.registrations held).marker
      held := true
      reattaching := true
      reattachedFrom := some held }
  have heq : ((s.allocate reg).adoptHeldRegistration s.registrationCount held).registrations =
      (s.allocate adopted).registrations := by
    funext i
    unfold adoptHeldRegistration
    rw [modify_registrations, allocate_registrations, allocate_registrations, allocate_registrations,
      allocate_registrations, if_neg hne, if_pos rfl]
    split
    · rfl
    · rfl
  have hallocated : (s.allocate adopted).Follows url v := by
    refine h.allocate hs hactive (fun hsome => ?_) fun _ hurl => ?_
    · have hstamp := h.stamped held hsome
      rw [hroute] at hstamp
      exact ⟨Nat.lt_of_lt_of_le hstamp.1 (Nat.le_max_right _ _), hstamp.2⟩
    · exact (h.live held hheld (hroute.trans hurl)).raise (Nat.le_max_right _ _) rfl
  exact hallocated.quiet (.of_eq heq rfl)

/-- Where no value has been installed, the version is the first one. -/
theorem first (h : s.Follows url v) (hgone : ∀ r, s.Live r → (s.place r).route ≠ url)
    (hfloor : s.markerFloors url = 0) (w : Version) (hw : w.2 = none) : Leads v w := by
  have hle := h.gone hgone
  have hzero : v.1 = 0 := by omega
  have hnone := h.origin hzero
  by_cases hlt : v.1 < w.1
  · exact Or.inl hlt
  · exact Or.inr (Prod.ext (by omega) (hnone.trans hw.symm))

theorem reserve (h : s.Follows url v) (hi : s.Indexed (fun _ => False) lost) (hs : s.Sane)
    {name : String} {spec : ServedSpec} {owner : Option Owner} {replaces : List Nat} {staged : Bool}
    (hcarries : staged = false → ∀ route, routeFor name spec = .ok route →
      s.rejoins name spec = true ∨ s.current name spec = none ∧ s.markerFloors route = 0)
    (hres : s.reserve name spec owner replaces staged = .ok s') : s'.Follows url v := by
  obtain ⟨place, reg, hreg, hname, hspec, -, -, -, hs'⟩ := reserve_cases hres
  have hclaim := claimNamespace_same s name owner staged
  have hquiet := Quiet.claimNamespace s name owner staged
  have hregs := claimNamespace_registrations s name owner staged
  have ht := h.quiet hquiet
  have hti := hclaim.indexed hi
  have hts := hclaim.sane hs
  rw [← hclaim.count] at hs'
  cases hstaged : staged with
  | true =>
    rw [hstaged] at hs' hreg ht hts
    rw [hs', if_pos rfl]
    have hallocated : ((s.claimNamespace name owner true).allocate reg).Follows url v := by
      refine ht.allocate hts ?_ ?_ ?_
      · rw [hreg]
      · rw [hreg]
        exact fun hsome => absurd rfl hsome
      · rw [hreg]
        exact fun hfalse => by cases hfalse
    exact hallocated.quiet (.of_eq rfl rfl)
  | false =>
    rw [hstaged] at hs' hreg ht hts hti hquiet hclaim hregs
    rw [hs', if_neg (by simp)]
    generalize s.claimNamespace name owner false = t at *
    have hnew : (t.allocate reg).registrations t.registrationCount = reg := by
      rw [allocate_registrations, if_pos rfl]
    have hactive : reg.active = false := by rw [hreg]
    have hroute : routeFor reg.inNamespace reg.spec = .ok reg.route := reg.routed
    have hnamed : reg.inNamespace = name := by rw [hreg, ← hname]
    have hspecd : reg.spec = spec := by rw [hreg, ← hspec]
    unfold ShareServer.placeUnstaged
    dsimp only
    rw [hnew]
    cases hheld : (t.allocate reg).heldRegistrationFor reg.inNamespace reg.spec reg.route with
    | some held =>
      obtain ⟨hfound, hsame⟩ := heldRegistrationFor_found hheld
      have hlive : t.Live held := hti.found_live hfound
      have hplace : (t.allocate reg).place held = t.place held := by
        unfold ShareServer.place
        rw [allocate_registrations, if_neg]
        rintro rfl
        exact hts.not_live hlive
      rw [hplace] at hsame
      have hadopt := (ht.adopt hts hactive hlive hsame).removeRegistration held
      exact (hadopt.quiet (.takeOver ..)).quiet (.of_eq rfl rfl)
    | none =>
      have hfirst : t.current reg.inNamespace reg.spec = none ∧ t.markerFloors reg.route = 0 := by
        have hroute' := hroute
        rw [hnamed, hspecd] at hroute'
        rw [hnamed, hspecd, hclaim.current, hquiet.floors]
        rcases hcarries hstaged reg.route hroute' with hrejoins | hfirst
        · have hallocated : (t.allocate reg).Indexed (fun j => j = t.registrationCount ∨ False)
              fun j => j = t.registrationCount ∨ lost j :=
            hti.allocateLive hts (by rw [hreg]) (by rw [hreg])
          refine absurd hheld (heldRegistrationFor_isSome hallocated hroute ?_)
          · obtain ⟨held, hcur, hh⟩ := (Option.any_eq_true ..).mp hrejoins
            have hcur : t.current reg.inNamespace reg.spec = some held := by
              rw [hnamed, hspecd, hclaim.current]
              exact hcur
            refine (Option.any_eq_true ..).mpr ⟨held, hcur, ?_⟩
            have hcur' : t.current reg.inNamespace reg.spec = some held := hcur
            have hne : held ≠ t.registrationCount := by
              rintro rfl
              exact hts.not_live (hti.found_live (Or.inr hcur'))
            rw [allocate_registrations, if_neg hne, hregs]
            exact hh
        · exact hfirst
      refine quiet (quiet (ht.allocate hts hactive ?_ fun _ hurl => ?_) (.takeOver ..)) (.of_eq rfl rfl)
      · rw [hreg]
        exact fun hsome => absurd rfl hsome
      · rw [← hurl] at ht
        refine ht.first (fun r hr hsame => ?_) hfirst.2 _ ?_
        · have hcur := hti.current_complete hroute hr not_false hsame
          rw [hfirst.1] at hcur
          cases hcur
        · rw [hreg]

end Follows

end ShareServer

end SeamlessWorkflow
