import SeamlessWorkflow.Proofs.ShareSteps
import Mathlib.Data.List.Infix

/-!
# Reserving and committing keep the tables

An unstaged reservation may only take the place of the held registration at its own URL. A commit
enters its batch first and then removes what the batch replaces.
-/

namespace SeamlessWorkflow

namespace ShareServer

variable {s s' : ShareServer} {spare lost : Nat → Prop}

/-- What an unstaged reservation finds at its URL is held, and it finds nothing else that is not lost
under its share key. -/
def Yields (s : ShareServer) (lost : Nat → Prop) (name : String) (spec : ServedSpec) : Prop :=
  (∀ old, s.current name spec = some old → (s.registrations old).held = true) ∧
    ∀ old, s.recordOf name spec.path = some old → ¬ lost old → s.current name spec = some old

theorem SamePlaces.current (h : SamePlaces s s') (name : String) (spec : ServedSpec) :
    s'.current name spec = s.current name spec := by
  unfold ShareServer.current
  rw [h.top, h.records]

theorem Sane.placeUnstaged (h : s.Sane) (r : Nat) : (s.placeUnstaged r).Sane := by
  have hput : ∀ t : ShareServer, t.Sane → ∀ (name : String) (owner : Owner),
      ((t.takeOver name owner).putRecord r).Sane := by
    intro t ht name owner
    have htake := (takeOver_same t name owner).sane ht
    exact ⟨htake.unused, htake.staged⟩
  unfold ShareServer.placeUnstaged
  dsimp only
  split
  · exact hput _ h ..
  · exact hput _ (((adoptHeldRegistration_same ..).sane h).removeRegistration _) ..

/-! ## Reserving -/

theorem Indexed.addStaged (h : s.Indexed spare lost) (hs : s.Sane) {reg : ShareRegistration}
    (hreg : reg.staged = true) (hclosed : reg.closed = false) {staged : List Nat}
    (hstaged : staged = s.stagedReservations ++ [s.registrationCount]) :
    Indexed { s.allocate reg with stagedReservations := staged } spare lost ∧
      Sane { s.allocate reg with stagedReservations := staged } := by
  have halloc := h.allocateStaged hs hreg
  have hsane := hs.allocate reg
  refine ⟨⟨halloc.top, halloc.record, halloc.table⟩, ⟨hsane.unused, fun r hr => ?_⟩⟩
  have hr : r ∈ s.stagedReservations ++ [s.registrationCount] := hstaged ▸ hr
  rcases List.mem_append.mp hr with hold | hnew
  · exact hsane.staged r hold
  · have heq : (s.allocate reg).registrations r = reg := by
      rw [allocate_registrations, if_pos (List.mem_singleton.mp hnew)]
    show ((s.allocate reg).registrations r).staged = true ∧ ((s.allocate reg).registrations r).closed = _
    rw [heq]
    exact ⟨hreg, hclosed⟩

theorem Indexed.addUnstaged (h : s.Indexed (fun _ => False) lost) (hs : s.Sane)
    {reg : ShareRegistration} (hreg : reg.staged = false) (hclosed : reg.closed = false)
    (hns : (s.namespaces.lookup reg.inNamespace).isSome = true)
    (hyields : s.Yields lost reg.inNamespace reg.spec) :
    ((s.allocate reg).placeUnstaged s.registrationCount).Indexed (fun _ => False) lost := by
  obtain ⟨hheld, hrec⟩ := hyields
  have hreg_new : (s.allocate reg).registrations s.registrationCount = reg := by
    rw [allocate_registrations, if_pos rfl]
  have hplace : (s.allocate reg).place s.registrationCount = reg.toReservation := by
    unfold ShareServer.place
    rw [hreg_new]
  have halloc := h.allocateLive hs hreg hclosed
  have hspare : (fun j => j = s.registrationCount ∨ False) = fun j => j = s.registrationCount := by
    funext j
    exact propext (or_iff_left not_false)
  rw [hspare] at halloc
  have hold : ∀ old, s.Live old → old ≠ s.registrationCount := by
    rintro old hlive rfl
    exact hs.not_live hlive
  refine halloc.placeUnstaged ?_ ?_ ?_ ?_ ?_
  · unfold Live
    rw [hreg_new]
    exact ⟨hclosed, hreg⟩
  · rw [hplace]
    exact hns
  · rw [hplace]
    intro old ho
    exact hold old (h.table.sound (k := (reg.inNamespace, reg.spec.path)) ho).1
  · rw [hplace]
    intro old ho
    have ho : s.current reg.inNamespace reg.spec = some old := ho
    have hne := hold old (h.current_sound reg.routed ho).1
    rw [allocate_registrations, if_neg hne]
    exact ⟨hne, hheld old ho⟩
  · rw [hplace]
    exact hrec

theorem claimNamespace_registrations (s : ShareServer) (name : String) (owner : Option Owner)
    (staged : Bool) : (s.claimNamespace name owner staged).registrations = s.registrations := by
  unfold claimNamespace
  split <;> rfl

theorem Indexed.reserve (h : s.Indexed (fun _ => False) lost) (hs : s.Sane) {name : String}
    {spec : ServedSpec} {owner : Option Owner} {replaces : List Nat} {staged : Bool}
    (hyields : staged = false → s.Yields lost name spec)
    (hres : s.reserve name spec owner replaces staged = .ok s') :
    s'.Indexed (fun _ => False) lost ∧ s'.Sane := by
  obtain ⟨place, reg, hreg, hname, hspec, -, -, -, hs'⟩ := reserve_cases hres
  have hclaim := claimNamespace_same s name owner staged
  have hregs := claimNamespace_registrations s name owner staged
  have hi := hclaim.indexed h
  have hsane := hclaim.sane hs
  cases hstaged : staged with
  | true =>
    rw [hstaged] at hs' hreg hclaim hi hsane
    rw [hs', if_pos rfl]
    exact hi.addStaged hsane (by rw [hreg]) (by rw [hreg]) (by rw [hclaim.staged, hclaim.count])
  | false =>
    rw [hstaged] at hs' hreg hclaim hregs hi hsane
    rw [hs', if_neg (by simp), ← hclaim.count]
    refine ⟨hi.addUnstaged hsane (by rw [hreg]) (by rw [hreg]) ?_ ?_,
      (hsane.allocate reg).placeUnstaged _⟩
    · rw [hreg]
      dsimp only
      rw [hname]
      exact claimNamespace_isSome ..
    · obtain ⟨hheld, hrec⟩ := hyields hstaged
      rw [hreg]
      dsimp only
      rw [hname, hspec]
      refine ⟨fun old ho => ?_, fun old ho hlost => ?_⟩
      · rw [hclaim.current] at ho
        rw [hregs]
        exact hheld old ho
      · rw [hclaim.tables] at ho
        rw [hclaim.current]
        exact hrec old ho hlost

/-! ## Committing -/

theorem unstage_live (s : ShareServer) {r : Nat} (hclosed : (s.registrations r).closed = false)
    (j : Nat) : (s.unstage r).Live j ↔ j = r ∨ s.Live j := by
  show (s.modify r fun reg => { reg with staged := false }).Live j ↔ _
  unfold Live
  rw [modify_registrations]
  by_cases hj : j = r
  · rw [if_pos hj]
    exact ⟨fun _ => Or.inl hj, fun _ => ⟨hclosed, rfl⟩⟩
  · rw [if_neg hj]
    exact ⟨Or.inr, fun hl => hl.resolve_left hj⟩

/-- A staged registration is entered; what it finds in the tables is to be removed. -/
theorem Indexed.unstage (h : s.Indexed spare lost) {r : Nat}
    (hclosed : (s.registrations r).closed = false)
    (hns : (s.namespaces.lookup (s.place r).inNamespace).isSome = true) :
    (s.unstage r).Indexed (fun j => spare j ∨ j ∈ s.replacedBy r)
      (fun j => lost j ∨ j ∈ s.replacedBy r) := by
  let t := s.modify r fun reg => { reg with staged := false }
  have hplace : ∀ j, t.place j = s.place j := by
    intro j
    unfold place
    rw [modify_registrations]
    split
    · rename_i hj
      rw [hj]
    · rfl
  have hlive : ∀ j, t.Live j ↔ j = r ∨ s.Live j := unstage_live s hclosed
  have hkey : ∀ {κ : Type} (key : Reservation → Option κ) j, s.Live j → key (t.place j) =
      key (s.place j) := fun key j _ => by rw [hplace]
  have ht : t.Indexed (fun j => j = r ∨ spare j) (fun j => j = r ∨ lost j) :=
    ⟨h.top.appear (hkey _) hlive (fun _ => Or.inr) (Or.inl rfl),
      h.record.appear (hkey _) hlive (fun _ => Or.inr) (Or.inl rfl),
      h.table.appear (hkey _) hlive (fun _ => Or.inr) (Or.inl rfl)⟩
  have hput := ht.putRecord ((hlive r).mpr (Or.inl rfl)) (by rwa [hplace])
  rw [hplace] at hput
  have hold : ∀ (p : Nat → Prop) j, (j ≠ r ∧ ((j = r ∨ p j) ∨
      (s.current (s.place r).inNamespace (s.place r).spec = some j ∨
        s.recordOf (s.place r).inNamespace (s.place r).spec.path = some j))) →
      p j ∨ j ∈ s.replacedBy r := by
    intro p j hj
    rcases hj.2 with (hjr | hp) | hfind | hfind
    · exact absurd hjr hj.1
    · exact Or.inl hp
    · exact Or.inr (List.mem_append_right _ (Option.mem_toList.mpr hfind))
    · exact Or.inr (List.mem_append_left _ (Option.mem_toList.mpr hfind))
  have hclaim := SamePlaces.modifyNamespace (t.putRecord r) (s.place r).inNamespace
    (f := fun ns => { ns with stagedClaim := false }) fun _ => rfl
  have hend := hclaim.indexed (Indexed.mk
    (hput.top.weaken fun j _ hj => hold spare j ⟨hj.1, hj.2.imp id Or.inl⟩)
    (hput.record.weaken fun j _ hj => hold spare j ⟨hj.1, hj.2.imp id Or.inl⟩)
    (hput.table.weaken fun j _ hj => hold lost j ⟨hj.1, hj.2.imp id Or.inr⟩))
  have hname : (t.registrations r).inNamespace = (s.place r).inNamespace :=
    congrArg Reservation.inNamespace (hplace r)
  unfold ShareServer.unstage
  dsimp only
  show Indexed { (t.putRecord r).modifyNamespace (t.registrations r).inNamespace _ with
    stagedReservations := _ } _ _
  rw [hname]
  exact ⟨hend.top, hend.record, hend.table⟩

theorem Sane.unstage (h : s.Sane) {r : Nat} (hclosed : (s.registrations r).closed = false) :
    (s.unstage r).Sane where
  unused i hi := by
    show ((s.modify r fun reg => { reg with staged := false }).registrations i).closed = true
    rw [modify_registrations]
    have hunused := h.unused i hi
    have hne : i ≠ r := by
      rintro rfl
      rw [hclosed] at hunused
      cases hunused
    rw [if_neg hne]
    exact hunused
  staged i hi := by
    have hmem := List.mem_filter.mp hi
    have hne : i ≠ r := by simpa using hmem.2
    show ((s.modify r fun reg => { reg with staged := false }).registrations i).staged = true ∧
      ((s.modify r fun reg => { reg with staged := false }).registrations i).closed = false
    rw [modify_registrations, if_neg hne]
    exact h.staged i hmem.1

theorem SamePlaces.replacedBy (h : SamePlaces s s') (r : Nat) : s'.replacedBy r = s.replacedBy r := by
  have hplace := (h.places r).1
  have hname : (s'.registrations r).inNamespace = (s.registrations r).inNamespace :=
    congrArg Reservation.inNamespace hplace
  have hspec : (s'.registrations r).spec = (s.registrations r).spec :=
    congrArg Reservation.spec hplace
  unfold ShareServer.replacedBy
  dsimp only
  rw [h.tables, h.current, hname, hspec]

/-- The state in which a registration of a batch is entered: it has its value and its marker. -/
theorem publish_eq (s : ShareServer) (r : Nat) :
    ∃ t, SamePlaces s t ∧ s.publish r = t.unstage r :=
  ⟨_, (adoptIfHeld_same s r).trans (raiseMarker_same ..), rfl⟩

theorem unstage_spaces (s : ShareServer) (r : Nat) {name : String}
    (hname : (s.namespaces.lookup name).isSome = true) :
    ((s.unstage r).namespaces.lookup name).isSome = true := by
  show ((Index.adjust (Index.adjust s.namespaces _ _) _ _).lookup name).isSome = true
  rw [Index.lookup_adjust]
  have hinner : ∀ (k : String) (f : ShareNamespace → ShareNamespace),
      ((Index.adjust s.namespaces k f).lookup name).isSome = true := by
    intro k f
    rw [Index.lookup_adjust]
    split
    · rwa [Option.isSome_map]
    · exact hname
  split
  · rw [Option.isSome_map]
    exact hinner ..
  · exact hinner ..

/-- A batch is entered one after the other; what it replaces is collected. -/
theorem Indexed.publishBatch (registrations : List Nat) : ∀ {s : ShareServer} {spare lost : Nat → Prop},
    s.Indexed spare lost → s.Sane → registrations.Nodup →
    (∀ r ∈ registrations, r ∈ s.stagedReservations ∧
      (s.namespaces.lookup (s.place r).inNamespace).isSome = true) →
    (publishAll registrations s).1.Indexed (fun j => spare j ∨ j ∈ (publishAll registrations s).2)
      (fun j => lost j ∨ j ∈ (publishAll registrations s).2) ∧
    (publishAll registrations s).1.Sane := by
  induction registrations with
  | nil =>
    intro s spare lost h hs _ _
    exact ⟨⟨h.top.weaken fun _ _ => Or.inl, h.record.weaken fun _ _ => Or.inl,
      h.table.weaken fun _ _ => Or.inl⟩, hs⟩
  | cons r registrations ih =>
    intro s spare lost h hs hnodup hmem
    obtain ⟨hr, hns⟩ := hmem r (List.mem_cons_self ..)
    obtain ⟨hnot, hnodup⟩ := List.nodup_cons.mp hnodup
    obtain ⟨t, hsame, ht⟩ := publish_eq s r
    have hclosed : (t.registrations r).closed = false := by
      rw [(hsame.places r).2.2]
      exact (hs.staged r hr).2
    have hplace : t.place r = s.place r := (hsame.places r).1
    have hi := (hsame.indexed h).unstage hclosed (hplace ▸ hsame.spaces _ hns)
    have hsane := (hsame.sane hs).unstage hclosed
    rw [hsame.replacedBy] at hi
    have hrest := ih hi hsane hnodup fun j hj => by
      obtain ⟨hstaged, hspace⟩ := hmem j (List.mem_cons_of_mem _ hj)
      have hne : j ≠ r := fun hjr => hnot (hjr ▸ hj)
      have hjplace : (t.unstage r).place j = s.place j := by
        rw [← (hsame.places j).1]
        show ((t.modify r fun reg => { reg with staged := false }).registrations j).toReservation = _
        rw [modify_registrations, if_neg hne]
        rfl
      refine ⟨List.mem_filter.mpr ⟨hsame.staged ▸ hstaged, by simpa using hne⟩, ?_⟩
      rw [hjplace]
      exact unstage_spaces t r (hsame.spaces _ hspace)
    have hunfold : publishAll (r :: registrations) s =
        ((publishAll registrations (s.publish r)).1,
          s.replacedBy r ++ (publishAll registrations (s.publish r)).2) := rfl
    rw [hunfold, ht]
    have hor : ∀ (p : Nat → Prop) j, ((p j ∨ j ∈ s.replacedBy r) ∨
        j ∈ (publishAll registrations (t.unstage r)).2) →
        p j ∨ j ∈ s.replacedBy r ++ (publishAll registrations (t.unstage r)).2 := by
      intro p j hj
      rw [List.mem_append]
      tauto
    exact ⟨⟨hrest.1.top.weaken fun j _ => hor spare j, hrest.1.record.weaken fun j _ => hor spare j,
      hrest.1.table.weaken fun j _ => hor lost j⟩, hrest.2⟩

/-- The registrations of a batch that passes the checks are staged and different. -/
theorem commitChecks_ok {registrations : List Nat}
    (h : ∀ check ∈ s.commitChecks registrations, check.1 = false) :
    (∀ r ∈ registrations, r ∈ s.stagedReservations) ∧ registrations.Nodup := by
  refine ⟨fun r hr => ?_, ?_⟩
  · have := h (!s.stagedReservations.contains r, .notAvailable) (by
      refine List.mem_append_left _ (List.mem_flatMap.mpr ⟨r, hr, List.mem_append_left _ ?_⟩)
      exact List.mem_cons_of_mem _ (List.mem_singleton.mpr rfl))
    simpa using this
  · have htails : ∀ r others, r :: others <:+ registrations → r ∉ others := by
      intro r others hsuffix hmem
      have := h _ (List.mem_append_right _ (List.mem_flatMap.mpr
        ⟨r :: others, (List.mem_tails _ _).mpr hsuffix, List.mem_map.mpr ⟨r, hmem, rfl⟩⟩))
      simp at this
    clear h
    induction registrations with
    | nil => exact List.nodup_nil
    | cons r registrations ih =>
      refine List.nodup_cons.mpr ⟨htails r registrations (List.suffix_refl _), ih ?_⟩
      exact fun j others hsuffix => htails j others (hsuffix.trans (List.suffix_cons ..))

theorem takeOverAll_ok (registrations : List Nat) : ∀ {s : ShareServer},
    (takeOverAll registrations s).1 = .ok () →
      ∀ r ∈ registrations, (s.namespaces.lookup (s.place r).inNamespace).isSome = true := by
  induction registrations with
  | nil => exact fun _ r hr => absurd hr (by simp)
  | cons r registrations ih =>
    intro s h j hj
    unfold takeOverAll at h
    dsimp only at h
    split at h
    · cases h
    · rename_i hsome
      rcases List.mem_cons.mp hj with rfl | hj
      · cases hc : s.namespaces.lookup (s.place j).inNamespace with
        | none => exact absurd (Option.isNone_iff_eq_none.mpr hc) hsome
        | some ns => rfl
      · have hrest := ih h j hj
        have hregs : (s.takeOver (s.registrations r).inNamespace (s.registrations r).owner).place j =
            s.place j := ((takeOver_same ..).places j).1
        rw [hregs] at hrest
        unfold takeOver at hrest
        split at hrest
        · change ((Index.adjust s.namespaces _ _).lookup _).isSome = true at hrest
          rw [Index.lookup_adjust] at hrest
          split at hrest
          · rwa [Option.isSome_map] at hrest
          · exact hrest
        · exact hrest

/-- A commit either raises and leaves the places as they were, or enters its batch and removes what
the batch replaces. -/
theorem commitReservations_cases (s : ShareServer) (registrations : List Nat) :
    ((∃ e, (s.commitReservations registrations).1 = .error e) ∧
      SamePlaces s (s.commitReservations registrations).2 ∧
      ((s.commitReservations registrations).2 = s ∨
        (∀ check ∈ s.commitChecks registrations, check.1 = false) ∧
          (s.commitReservations registrations).2 = (takeOverAll registrations s).2)) ∨
    (∀ check ∈ s.commitChecks registrations, check.1 = false) ∧
      (takeOverAll registrations s).1 = .ok () ∧
      (s.commitReservations registrations).2 =
        (publishAll registrations (takeOverAll registrations s).2).2.foldl removeRegistration
          (publishAll registrations (takeOverAll registrations s).2).1 := by
  unfold commitReservations
  split
  · exact Or.inl ⟨⟨_, rfl⟩, .refl s, Or.inl rfl⟩
  · rename_i hchecks
    have hsame := takeOverAll_same registrations s
    split
    · rename_i e t htake
      rw [htake] at hsame
      exact Or.inl ⟨⟨e, rfl⟩, hsame, Or.inr ⟨firstError_ok hchecks, by rw [htake]⟩⟩
    · rename_i t htake
      refine Or.inr ⟨firstError_ok hchecks, ?_, ?_⟩
      · rw [htake]
      · rw [htake]

theorem Indexed.commitReservations (h : s.Indexed (fun _ => False) lost) (hs : s.Sane)
    (registrations : List Nat) :
    (s.commitReservations registrations).2.Indexed (fun _ => False) lost ∧
      (s.commitReservations registrations).2.Sane := by
  rcases commitReservations_cases s registrations with ⟨-, hsame, -⟩ | ⟨hchecks, htake, heq⟩
  · exact ⟨hsame.indexed h, hsame.sane hs⟩
  · have hsame := takeOverAll_same registrations s
    obtain ⟨hstaged, hnodup⟩ := commitChecks_ok hchecks
    have hspaces := takeOverAll_ok registrations htake
    obtain ⟨hi, hsane⟩ := Indexed.publishBatch registrations (hsame.indexed h) (hsame.sane hs) hnodup
      fun r hr => ⟨hsame.staged ▸ hstaged r hr, by
        rw [(hsame.places r).1]
        exact hsame.spaces _ (hspaces r hr)⟩
    rw [heq]
    generalize publishAll registrations (takeOverAll registrations s).2 = batch at hi hsane
    have hend : (batch.2.foldl ShareServer.removeRegistration batch.1).Indexed _ _ :=
      Indexed.foldl (fun s r h => h.removeRegistration r) _ _ hi
    have hlive := foldl_live removeRegistration_live batch.2 batch.1
    refine ⟨⟨hend.top.weaken fun j hj hspare => ?_, hend.record.weaken fun j hj hspare => ?_,
      hend.table.weaken fun j hj hlost => ?_⟩,
      Sane.foldl (fun s r h => h.removeRegistration r) _ _ hsane⟩
    · exact hspare.elim id ((hlive j).mp hj).2
    · exact hspare.elim id ((hlive j).mp hj).2
    · exact hlost.elim id fun hmem => absurd hmem ((hlive j).mp hj).2

end ShareServer

end SeamlessWorkflow
