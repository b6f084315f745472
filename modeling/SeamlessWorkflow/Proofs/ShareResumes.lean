import SeamlessWorkflow.Proofs.ShareReleases

/-!
# A commit hands on the waits

The waits for the registrations that a commit replaces are handed on to those that re-attach to them.
-/

namespace SeamlessWorkflow

namespace ShareServer

variable {s s' : ShareServer} {spare lost : Nat → Prop} {r f : Nat}

/-! ## Batches -/

/-- A batch that may be entered. -/
structure Batch (s : ShareServer) (registrations : List Nat) : Prop where
  sound : s.Sound
  sane : s.Sane
  nodup : registrations.Nodup
  apart : registrations.Pairwise fun r r' => (s.place r).route ≠ (s.place r').route ∧
    (s.place r).tableKey ≠ (s.place r').tableKey
  staged : ∀ r ∈ registrations, r ∈ s.stagedReservations ∧
    (s.namespaces.lookup (s.place r).inNamespace).isSome = true

theorem putRecord_recordOf (s : ShareServer) (n : Nat) {name : String} {path : List String}
    (hne : (s.place n).tableKey ≠ some (name, path)) :
    (s.putRecord n).recordOf name path = s.recordOf name path := by
  have hadjust : (s.putRecord n).recordOf name path =
      (s.modifyNamespace (s.place n).inNamespace fun ns =>
        { ns with records := ns.records.insert (s.place n).spec.path n }).recordOf name path := rfl
  rw [hadjust, recordOf_adjust]
  split
  · rename_i hname
    have hpath : path ≠ (s.place n).spec.path := by
      rintro rfl
      refine hne ?_
      unfold Reservation.tableKey
      rw [hname]
    unfold recordOf
    cases s.namespaces.lookup name with
    | none => rfl
    | some ns =>
      show (ns.records.insert _ n).lookup path = ns.records.lookup path
      rw [AList.lookup_insert_ne hpath]
  · rfl

/-- Entering a registration leaves other keys alone. -/
theorem publish_recordOf (s : ShareServer) (n : Nat) {name : String} {path : List String}
    (hne : (s.place n).tableKey ≠ some (name, path)) :
    (s.publish n).recordOf name path = s.recordOf name path := by
  obtain ⟨t, hsame, ht⟩ := publish_eq s n
  have hmodify : SamePlaces (t.modify n fun reg => { reg with staged := false })
      (t.modify n fun reg => { reg with staged := false }) := .refl _
  have hplace : (t.modify n fun reg => { reg with staged := false }).place n = s.place n := by
    rw [← (hsame.places n).1]
    unfold ShareServer.place
    rw [modify_registrations, if_pos rfl]
  have hlast := (SamePlaces.modifyNamespace ((t.modify n fun reg =>
    { reg with staged := false }).putRecord n) (t.registrations n).inNamespace
      (f := fun ns => { ns with stagedClaim := false }) fun _ => rfl).tables name path
  rw [ht]
  have hunfold : (t.unstage n).recordOf name path = (((t.modify n fun reg =>
      { reg with staged := false }).putRecord n).modifyNamespace ((t.modify n fun reg =>
      { reg with staged := false }).registrations n).inNamespace
      fun ns => { ns with stagedClaim := false }).recordOf name path := rfl
  have hname : ((t.modify n fun reg => { reg with staged := false }).registrations n).inNamespace =
      (t.registrations n).inNamespace := by
    rw [modify_registrations, if_pos rfl]
  rw [hunfold, hname, hlast, putRecord_recordOf _ _ (by rwa [hplace]), ← hsame.tables]
  rfl

namespace Batch

variable {n : Nat} {rest : List Nat}

theorem publish (h : s.Batch (n :: rest)) : (s.publish n).Batch rest := by
  obtain ⟨hn, hns⟩ := h.staged n (List.mem_cons_self ..)
  obtain ⟨hnot, hnodup⟩ := List.nodup_cons.mp h.nodup
  obtain ⟨-, hapart⟩ := List.pairwise_cons.mp h.apart
  obtain ⟨-, hclosed⟩ := h.sane.staged n hn
  obtain ⟨t, hsame, ht⟩ := publish_eq s n
  obtain ⟨reg, he, hregs, -⟩ := publish_enters s n
  have hplace := he.place_eq hregs
  have hclosed' : (t.registrations n).closed = false := by
    rw [(hsame.places n).2.2]
    exact hclosed
  have hi := (hsame.indexed h.sound).unstage hclosed' (by
    rw [(hsame.places n).1]
    exact hsame.spaces _ hns)
  have hs := (hsame.sane h.sane).unstage hclosed'
  rw [← ht] at hi hs
  refine ⟨hi.isSound, hs, hnodup, hapart.imp fun hne => ?_, fun j hj => ?_⟩
  · rw [hplace, hplace]
    exact hne
  · obtain ⟨hstagedj, hspace⟩ := h.staged j (List.mem_cons_of_mem _ hj)
    have hne : j ≠ n := fun hjn => hnot (hjn ▸ hj)
    refine ⟨?_, ?_⟩
    · rw [ht]
      exact List.mem_filter.mpr ⟨hsame.staged ▸ hstagedj, by simpa using hne⟩
    · rw [hplace, ht]
      exact unstage_spaces t n (hsame.spaces _ hspace)

/-- What the others of a batch find is not changed when its first registration is entered. -/
theorem found (h : s.Batch (n :: rest)) {j : Nat} (hj : j ∈ rest) :
    (s.publish n).heldFor j = s.heldFor j ∧ (s.publish n).replacedBy j = s.replacedBy j := by
  obtain ⟨hn, -⟩ := h.staged n (List.mem_cons_self ..)
  obtain ⟨hfirst, -⟩ := List.pairwise_cons.mp h.apart
  obtain ⟨hroute, hkey⟩ := hfirst j hj
  obtain ⟨reg, he, hregs, -⟩ := publish_enters s n
  have hplace := he.place_eq hregs j
  have hcurrent := publish_current s (s.place j).routed hroute
  have hrecord : (s.publish n).recordOf (s.place j).inNamespace (s.place j).spec.path =
      s.recordOf (s.place j).inNamespace (s.place j).spec.path := publish_recordOf s n hkey
  refine ⟨?_, ?_⟩
  · unfold heldFor
    rw [hplace]
    refine heldRegistrationFor_congr hrecord hcurrent fun i hi => ?_
    have hlive := h.sound.found_live hi
    have hne : i ≠ n := by
      rintro rfl
      have hstaged := (h.sane.staged i hn).1
      rw [hlive.2] at hstaged
      cases hstaged
    rw [he.place_eq hregs, hregs, Function.update_of_ne hne]
    exact ⟨rfl, rfl⟩
  · have hunfold : ∀ t : ShareServer, t.replacedBy j =
        (t.recordOf (t.place j).inNamespace (t.place j).spec.path).toList ++
          (t.current (t.place j).inNamespace (t.place j).spec).toList := fun _ => rfl
    rw [hunfold, hunfold, hplace, hrecord, hcurrent]

end Batch

theorem publishAll_of_not_mem (registrations : List Nat) : ∀ {s : ShareServer} {j : Nat},
    j ∉ registrations → (publishAll registrations s).1.registrations j = s.registrations j := by
  induction registrations with
  | nil => exact fun _ => rfl
  | cons n rest ih =>
    intro s j hj
    obtain ⟨hne, hrest⟩ := not_or.mp fun hor => hj (List.mem_cons.mpr hor)
    obtain ⟨reg, -, hregs, -⟩ := publish_enters s n
    have hunfold : (publishAll (n :: rest) s).1 = (publishAll rest (s.publish n)).1 := rfl
    rw [hunfold, ih hrest, hregs, Function.update_of_ne hne]

/-- A batch replaces what its registrations have found. -/
theorem publishAll_replaced (registrations : List Nat) : ∀ {s : ShareServer},
    s.Batch registrations → ∀ j ∈ (publishAll registrations s).2, ∃ n ∈ registrations,
      j ∈ s.replacedBy n := by
  induction registrations with
  | nil => exact fun _ j hj => by cases hj
  | cons n rest ih =>
    intro s h j hj
    have hunfold : (publishAll (n :: rest) s).2 =
        s.replacedBy n ++ (publishAll rest (s.publish n)).2 := rfl
    rw [hunfold] at hj
    rcases List.mem_append.mp hj with hj | hj
    · exact ⟨n, List.mem_cons_self .., hj⟩
    · obtain ⟨m, hm, hjm⟩ := ih h.publish j hj
      rw [(h.found hm).2] at hjm
      exact ⟨m, List.mem_cons_of_mem _ hm, hjm⟩

/-- Its registrations re-attach to the held ones that they have found. -/
theorem publishAll_adopts (registrations : List Nat) : ∀ {s : ShareServer},
    s.Batch registrations → ∀ n ∈ registrations, ∀ held, s.heldFor n = some held →
      (publishAll registrations s).1.Holding n ∧
        ((publishAll registrations s).1.registrations n).reattachedFrom = some held := by
  induction registrations with
  | nil => exact fun _ n hn => by cases hn
  | cons m rest ih =>
    intro s h n hn held hheld
    have hunfold : (publishAll (m :: rest) s).1 = (publishAll rest (s.publish m)).1 := rfl
    rw [hunfold]
    rcases List.mem_cons.mp hn with rfl | hn
    · obtain ⟨reg, he, hregs, -⟩ := publish_enters s n
      obtain ⟨hstaged, -⟩ := h.staged n (List.mem_cons_self ..)
      have hnew : (publishAll rest (s.publish n)).1.registrations n = reg := by
        rw [publishAll_of_not_mem rest (List.nodup_cons.mp h.nodup).1, hregs, Function.update_self]
      obtain ⟨-, -, hh, hpred⟩ := he.adopted held hheld
      unfold Holding
      rw [hnew]
      exact ⟨⟨he.closed.trans (h.sane.staged n hstaged).2, Or.inl hh⟩, hpred⟩
    · exact ih h.publish n hn held ((h.found hn).1.trans hheld)

/-! ## Committing -/

theorem takeOverAll_futures (registrations : List Nat) : ∀ s : ShareServer,
    (takeOverAll registrations s).2.futures = s.futures := by
  induction registrations with
  | nil => exact fun s => rfl
  | cons n rest ih =>
    intro s
    unfold takeOverAll
    dsimp only
    split
    · rfl
    · refine (ih _).trans ?_
      unfold takeOver
      split <;> rfl

/-- Once the namespaces have passed on, a batch that the checks admit may be entered. -/
theorem takeOverAll_batch (hs : s.Sound) (hsane : s.Sane) {registrations : List Nat}
    (hchecks : ∀ check ∈ s.commitChecks registrations, check.1 = false)
    (htake : (takeOverAll registrations s).1 = .ok ()) :
    (takeOverAll registrations s).2.Batch registrations := by
  have hsame := takeOverAll_same registrations s
  obtain ⟨hstaged, hnodup⟩ := commitChecks_ok hchecks
  have hspaces := takeOverAll_ok registrations htake
  refine ⟨hsame.indexed hs, hsame.sane hsane, hnodup, ?_, fun n hn => ?_⟩
  · refine (commitChecks_apart hchecks).imp fun hne => ?_
    rw [(hsame.places _).1, (hsame.places _).1]
    exact hne
  · rw [hsame.staged, (hsame.places n).1]
    exact ⟨hstaged n hn, hsame.spaces _ (hspaces n hn)⟩

theorem publishAll_futures (registrations : List Nat) : ∀ s : ShareServer,
    (publishAll registrations s).1.futures = s.futures := by
  induction registrations with
  | nil => exact fun s => rfl
  | cons n rest ih =>
    intro s
    have hunfold : (publishAll (n :: rest) s).1 = (publishAll rest (s.publish n)).1 := rfl
    rw [hunfold, ih]
    show (s.adoptIfHeld n).futures = s.futures
    unfold adoptIfHeld
    dsimp only
    split <;> rfl

theorem Calm.unstage (s : ShareServer) (n : Nat) : Calm s (s.unstage n) := by
  have hmodify : Calm s (s.modify n fun reg => { reg with staged := false }) :=
    .update rfl rfl rfl rfl rfl (fun hn => hn.2) rfl fun _ _ hf => hf
  have hput := hmodify.trans (.putRecord _ n)
  have hclaims : ∀ (t : ShareServer) (name : String),
      Calm t (t.modifyNamespace name fun ns => { ns with stagedClaim := false }) :=
    fun t name => .adjust fun _ hc => hc
  exact (hput.trans (hclaims _ _)).trans (.of_eq rfl rfl rfl)

namespace Awaits

theorem publish (h : s.Awaits r f) {n : Nat} (hpred : (s.registrations n).reattachedFrom = none) :
    (s.publish n).Awaits r f := by
  have hadopt : (s.adoptIfHeld n).Awaits r f := by
    unfold adoptIfHeld
    dsimp only
    split
    · exact h
    · exact h.adopt hpred
  have hraise : Calm (s.adoptIfHeld n) ((s.adoptIfHeld n).raiseMarker n (s.replacedBy n)) :=
    .update rfl rfl rfl rfl rfl (fun hn => hn.2) rfl fun _ _ hf => hf
  exact (hadopt.calm hraise).calm (.unstage _ n)

theorem publishAll (registrations : List Nat) : ∀ {s : ShareServer}, s.Awaits r f →
    registrations.Nodup → (∀ n ∈ registrations, (s.registrations n).reattachedFrom = none) →
    (publishAll registrations s).1.Awaits r f := by
  induction registrations with
  | nil => exact fun h _ _ => h
  | cons n rest ih =>
    intro s h hnodup hpred
    obtain ⟨hnot, hnodup⟩ := List.nodup_cons.mp hnodup
    obtain ⟨reg, -, hregs, -⟩ := publish_enters s n
    refine ih (h.publish (hpred n (List.mem_cons_self ..))) hnodup fun j hj => ?_
    have hne : j ≠ n := fun hjn => hnot (hjn ▸ hj)
    rw [hregs, Function.update_of_ne hne]
    exact hpred j (List.mem_cons_of_mem _ hj)

theorem takeOverAll (registrations : List Nat) : ∀ {s : ShareServer}, s.Awaits r f →
    (s.isPending f = true → ∀ n ∈ registrations,
      s.canTakeOver (s.place n).inNamespace (some (s.place n).owner) = true →
        (s.place r).inNamespace = (s.place n).inNamespace → s.Supported r) →
    (takeOverAll registrations s).2.Awaits r f := by
  induction registrations with
  | nil => exact fun h _ => h
  | cons n rest ih =>
    intro s h hr
    unfold ShareServer.takeOverAll
    dsimp only
    split
    · exact h
    · have hregs := takeOver_registrations s (s.registrations n).inNamespace (s.registrations n).owner
      have hsame := takeOver_same s (s.registrations n).inNamespace (s.registrations n).owner
      refine ih (h.takeOver fun hp hcan => hr hp n (List.mem_cons_self ..) hcan)
        fun hp j hj hcan hname => ?_
      have hp : s.isPending f = true := by
        unfold isPending at hp ⊢
        unfold ShareServer.takeOver at hp
        split at hp
        · exact hp
        · exact hp
      rw [(hsame.places j).1] at hcan hname
      rw [(hsame.places r).1] at hname
      have hsup := hr hp j (List.mem_cons_of_mem _ hj) (canTakeOver_takeOver hcan) hname
      unfold Supported Holding at hsup ⊢
      rwa [hregs]

/-- A commit hands on the waits for what it replaces. -/
theorem commitReservations (h : s.Awaits r f) (hs : s.Sound) (hsane : s.Sane)
    (hadopted : ∀ n, (s.registrations n).staged = true → (s.registrations n).reattachedFrom = none)
    {registrations : List Nat}
    (hr : s.isPending f = true → (∀ check ∈ s.commitChecks registrations, check.1 = false) →
      ∀ n ∈ registrations, (s.canTakeOver (s.place n).inNamespace (some (s.place n).owner) = true →
        (s.place r).inNamespace = (s.place n).inNamespace → s.Supported r) ∧
      ∀ old ∈ s.replacedBy n, (s.registrations old).reattachedFrom ≠ some r ∧
        (old = r → ∃ m ∈ registrations, s.heldFor m = some r)) :
    (s.commitReservations registrations).2.Awaits r f := by
  have htaken : (∀ check ∈ s.commitChecks registrations, check.1 = false) →
      (ShareServer.takeOverAll registrations s).2.Awaits r f := fun hchecks =>
    h.takeOverAll registrations fun hp n hn => (hr hp hchecks n hn).1
  rcases commitReservations_cases s registrations with ⟨-, -, heq⟩ | ⟨hchecks, htake, heq⟩
  · rcases heq with heq | ⟨hchecks, heq⟩
    · rw [heq]
      exact h
    · rw [heq]
      exact htaken hchecks
  · have hsame := takeOverAll_same registrations s
    have hregs := takeOverAll_registrations registrations s
    have ht := htaken hchecks
    have hpending : ∀ {g}, (ShareServer.takeOverAll registrations s).2.isPending g =
        s.isPending g := by
      intro g
      unfold isPending
      rw [takeOverAll_futures]
    have hfound : ∀ n, (ShareServer.takeOverAll registrations s).2.heldFor n = s.heldFor n := by
      intro n
      unfold heldFor
      rw [(hsame.places n).1]
      refine heldRegistrationFor_congr (hsame.tables _ _) (hsame.current ..) fun j _ => ?_
      rw [hregs]
      exact ⟨rfl, (hsame.places j).1⟩
    have hreplaced : ∀ n, (ShareServer.takeOverAll registrations s).2.replacedBy n =
        s.replacedBy n := hsame.replacedBy
    have hbatch := takeOverAll_batch hs hsane hchecks htake
    rw [← hregs] at hadopted
    generalize (ShareServer.takeOverAll registrations s).2 = t at *
    have hpublished := ht.publishAll registrations hbatch.nodup fun n hn =>
      hadopted n (hbatch.sane.staged n (hbatch.staged n hn).1).1
    have hpublished_pending : (ShareServer.publishAll registrations t).1.isPending f = t.isPending f := by
      unfold isPending
      rw [publishAll_futures]
    -- what is replaced has been live before, so it is none of the batch
    have hold : ∀ j ∈ (ShareServer.publishAll registrations t).2, t.Live j ∧ j ∉ registrations ∧
        ∃ n ∈ registrations, j ∈ s.replacedBy n := by
      intro j hj
      obtain ⟨n, hn, hjn⟩ := publishAll_replaced registrations hbatch j hj
      have hlive : t.Live j := by
        rcases List.mem_append.mp hjn with hmem | hmem
        · have hrecord : t.recordOf (t.place n).inNamespace (t.place n).spec.path = some j :=
            Option.mem_toList.mp hmem
          exact hbatch.sound.found_live (Or.inl hrecord)
        · exact hbatch.sound.found_live (Or.inr (Option.mem_toList.mp hmem))
      rw [hreplaced] at hjn
      refine ⟨hlive, fun hmem => ?_, n, hn, hjn⟩
      have hst := (hbatch.sane.staged j (hbatch.staged j hmem).1).1
      rw [hlive.2] at hst
      cases hst
    rw [heq]
    refine hpublished.foldl_removeRegistration _ (fun j hj => ?_) fun hp => ?_
    · obtain ⟨hlive, hnot, -⟩ := hold j hj
      rw [publishAll_of_not_mem registrations hnot]
      exact hlive.2
    · rw [hpublished_pending, hpending] at hp
      have hminds := hr hp hchecks
      by_cases hmem : r ∈ (ShareServer.publishAll registrations t).2
      · obtain ⟨-, -, n, hn, hrn⟩ := hold r hmem
        obtain ⟨m, hm, hheld⟩ := ((hminds n hn).2 r hrn).2 rfl
        rw [← hfound] at hheld
        obtain ⟨hholding, hpred⟩ := publishAll_adopts registrations hbatch m hm r hheld
        exact Or.inl ⟨m, hholding, fun hmem' => (hold m hmem').2.1 hm, Or.inr hpred⟩
      · refine Or.inr ⟨hmem, fun j hj => ?_⟩
        obtain ⟨-, hnot, n, hn, hjn⟩ := hold j hj
        rw [publishAll_of_not_mem registrations hnot, hregs]
        exact ((hminds n hn).2 j hjn).1

end Awaits

/-! ## Who re-attaches -/

/-- A registration re-attaches only when it has been published, to one that was there before. -/
structure Origins (s : ShareServer) : Prop where
  published : ∀ n, (s.registrations n).staged = true → (s.registrations n).reattachedFrom = none
  known : ∀ n p, (s.registrations n).reattachedFrom = some p → p < s.registrationCount

/-- Nobody re-attaches and nobody is staged who did not before. -/
structure SameOrigins (s s' : ShareServer) : Prop where
  staged : ∀ n, (s'.registrations n).staged = true → (s.registrations n).staged = true
  predecessor : ∀ n, (s'.registrations n).reattachedFrom = (s.registrations n).reattachedFrom ∨
    (s'.registrations n).reattachedFrom = none
  count : s.registrationCount ≤ s'.registrationCount

theorem Origins.same (h : s.Origins) (hs : SameOrigins s s') : s'.Origins where
  published n hn := by
    rcases hs.predecessor n with hp | hp
    · exact hp.trans (h.published n (hs.staged n hn))
    · exact hp
  known n p hp := by
    rcases hs.predecessor n with hpred | hpred
    · exact Nat.lt_of_lt_of_le (h.known n p (hpred ▸ hp)) hs.count
    · rw [hpred] at hp
      cases hp

namespace SameOrigins

theorem of_eq (hregs : s'.registrations = s.registrations)
    (hcount : s'.registrationCount = s.registrationCount) : SameOrigins s s' :=
  ⟨fun n hn => hregs ▸ hn, fun n => Or.inl (by rw [hregs]), Nat.le_of_eq hcount.symm⟩

theorem trans {s'' : ShareServer} (h : SameOrigins s s') (h' : SameOrigins s' s'') :
    SameOrigins s s'' := by
  refine ⟨fun n hn => h.staged n (h'.staged n hn), fun n => ?_, Nat.le_trans h.count h'.count⟩
  rcases h'.predecessor n with hp | hp
  · rw [hp]
    exact h.predecessor n
  · exact Or.inr hp

theorem foldl {g : ShareServer → Nat → ShareServer} (hg : ∀ s n, SameOrigins s (g s n)) :
    ∀ (l : List Nat) (s : ShareServer), SameOrigins s (l.foldl g s)
  | [], _ => of_eq rfl rfl
  | n :: l, s => (hg s n).trans (foldl hg l (g s n))

theorem of_calm (hc : Calm s s') (hs : SamePlaces s s') : SameOrigins s s' :=
  ⟨fun n hn => (hs.places n).2.1 ▸ hn, fun n => Or.inl (hc.predecessor n), Nat.le_of_eq hs.count.symm⟩

theorem removeRegistration (s : ShareServer) (n : Nat) : SameOrigins s (s.removeRegistration n) := by
  refine ⟨fun i hi => (removeRegistration_kept s n i).2 ▸ hi,
    fun i => Or.inl (removeRegistration_kept s n i).1, ?_⟩
  unfold ShareServer.removeRegistration
  dsimp only
  split
  · exact Nat.le_refl _
  · split
    · exact Nat.le_refl _
    · exact Nat.le_refl _

theorem expire (s : ShareServer) (n : Nat) : SameOrigins s (s.expire n) :=
  (of_calm (.complete ..) (complete_same ..)).trans (removeRegistration ..)

theorem completeReattach (s : ShareServer) (n : Nat) : SameOrigins s (s.completeReattach n) := by
  unfold ShareServer.completeReattach
  dsimp only
  split
  · exact of_eq rfl rfl
  · split
    · exact of_eq rfl rfl
    · refine trans ?_ (of_calm (.complete ..) (complete_same ..))
      refine ⟨fun i hi => ?_, fun i => ?_, Nat.le_refl _⟩
      · rw [modify_registrations] at hi
        split at hi
        · rename_i hin
          rw [hin]
          exact hi
        · exact hi
      · rw [modify_registrations]
        split
        · exact Or.inr rfl
        · exact Or.inl rfl

theorem holdNamespace (s : ShareServer) (name : String) (owner : Owner) (timeout : Nat) :
    SameOrigins s (s.holdNamespace name owner timeout) := by
  have hsame := holdNamespace_same s name owner timeout
  refine ⟨fun n hn => (hsame.places n).2.1 ▸ hn, fun n => Or.inl ?_, Nat.le_of_eq hsame.count.symm⟩
  unfold ShareServer.holdNamespace
  split
  · rfl
  · split
    · rfl
    · exact (Calm.foldl (Calm.holdUntil _) _ (s.modifyNamespace name _)).predecessor n

theorem endHold (s : ShareServer) (name : String) : SameOrigins s (s.endHold name) := by
  unfold ShareServer.endHold
  dsimp only
  split
  · exact of_eq rfl rfl
  · split
    · exact of_eq rfl rfl
    · split
      · exact of_eq rfl rfl
      · exact of_eq rfl rfl

theorem expireHolds (s : ShareServer) (name : String) : SameOrigins s (s.expireHolds name) := by
  unfold ShareServer.expireHolds
  split
  · exact of_eq rfl rfl
  · split
    · exact (foldl expire _ s).trans (endHold ..)
    · exact of_eq rfl rfl

theorem closeNamespace (s : ShareServer) (name : String) (owner : Owner) :
    SameOrigins s (s.closeNamespace name owner) := by
  unfold ShareServer.closeNamespace
  split
  · exact of_eq rfl rfl
  · split
    · exact of_eq rfl rfl
    · split
      · exact of_eq rfl rfl
      · exact ((foldl expire _ s).trans (foldl expire ..)).trans (of_eq rfl rfl)

end SameOrigins

namespace Origins

/-- A registration that re-attaches to a live one, when it is or becomes published. -/
theorem adopt (h : s.Origins) (hs : s.Sane) {n held : Nat} (hstaged : (s.registrations n).staged = false)
    (hheld : (s.registrations held).closed = false) : (s.adoptHeldRegistration n held).Origins := by
  have hlt : held < s.registrationCount := by
    by_contra hle
    have hunused := hs.unused held (Nat.le_of_not_lt hle)
    rw [hheld] at hunused
    cases hunused
  unfold adoptHeldRegistration
  refine ⟨fun i hi => ?_, fun i p hp => ?_⟩
  · rw [modify_registrations] at hi ⊢
    split at hi
    · rw [hstaged] at hi
      cases hi
    · rename_i hin
      rw [if_neg hin]
      exact h.published i hi
  · rw [modify_registrations] at hp
    split at hp
    · exact Option.some.inj hp ▸ hlt
    · exact h.known i p hp

theorem allocate (h : s.Origins) {reg : ShareRegistration} (hreg : reg.reattachedFrom = none) :
    (s.allocate reg).Origins := by
  refine ⟨fun i hi => ?_, fun i p hp => ?_⟩
  · rw [allocate_registrations] at hi ⊢
    split at hi
    · rename_i hin
      rw [if_pos hin]
      exact hreg
    · rename_i hin
      rw [if_neg hin]
      exact h.published i hi
  · rw [allocate_registrations] at hp
    split at hp
    · rw [hreg] at hp
      cases hp
    · exact Nat.lt_succ_of_lt (h.known i p hp)

theorem reserve (h : s.Origins) (hs : s.Sound) (hsane : s.Sane) {name : String} {spec : ServedSpec}
    {owner : Option Owner} {replaces : List Nat} {staged : Bool}
    (hres : s.reserve name spec owner replaces staged = .ok s') : s'.Origins := by
  obtain ⟨place, reg, hreg, hname, hspec, -, howner, hchecks, hs'⟩ := reserve_cases hres
  have hclaim := claimNamespace_same s name owner staged
  have ht := h.same (.of_calm (Calm.claimNamespace s name owner staged) hclaim)
  have hts := hclaim.indexed hs
  have htsane := hclaim.sane hsane
  rw [← hclaim.count] at hs'
  have hu : ((s.claimNamespace name owner staged).allocate reg).Origins :=
    ht.allocate (by rw [hreg])
  cases hstaged : staged with
  | true =>
    rw [hstaged] at hs' hu
    rw [hs', if_pos rfl]
    exact hu.same (.of_eq rfl rfl)
  | false =>
    rw [hstaged] at hs' hreg hu hts htsane
    rw [hs', if_neg (by simp)]
    generalize s.claimNamespace name owner false = t at *
    have hself : (t.allocate reg).registrations t.registrationCount = reg := by
      rw [allocate_registrations, if_pos rfl]
    have hend : ∀ (u : ShareServer) (o : Owner), u.Origins →
        ((u.takeOver reg.inNamespace o).putRecord t.registrationCount).Origins := fun u o hu =>
      hu.same (.of_eq (takeOver_registrations ..) (takeOver_same ..).count)
    unfold ShareServer.placeUnstaged
    dsimp only
    rw [hself]
    split
    · exact hend _ _ hu
    · rename_i held hheld
      have hlive : t.Live held := hts.found_live (heldRegistrationFor_found hheld).1
      have hne : held ≠ t.registrationCount := by
        rintro rfl
        exact htsane.not_live hlive
      refine hend _ _ ((hu.adopt (htsane.allocate reg) ?_ ?_).same (.removeRegistration ..))
      · rw [hself, hreg]
      · rw [allocate_registrations, if_neg hne]
        exact hlive.1

theorem publishAll (registrations : List Nat) : ∀ {s : ShareServer}, s.Origins →
    s.Batch registrations → (publishAll registrations s).1.Origins := by
  induction registrations with
  | nil => exact fun h _ => h
  | cons n rest ih =>
    intro s h hbatch
    refine ih ?_ hbatch.publish
    obtain ⟨reg, he, hregs, -⟩ := publish_enters s n
    have hcount : (s.publish n).registrationCount = s.registrationCount := by
      obtain ⟨t, hsame, ht⟩ := publish_eq s n
      rw [ht]
      exact hsame.count
    refine ⟨fun i hi => ?_, fun i p hp => ?_⟩
    · rw [hregs, Function.update_apply] at hi ⊢
      split at hi
      · rw [he.staged] at hi
        cases hi
      · rename_i hin
        rw [if_neg hin]
        exact h.published i hi
    · rw [hcount]
      rw [hregs, Function.update_apply] at hp
      split at hp
      · cases hheld : s.heldFor n with
        | none =>
          rw [(he.unheld hheld).2.2.2] at hp
          exact h.known n p hp
        | some held =>
          rw [(he.adopted held hheld).2.2.2] at hp
          have hlive := hbatch.sound.found_live (heldRegistrationFor_found hheld).1
          rw [← Option.some.inj hp]
          by_contra hle
          have hunused := hbatch.sane.unused held (Nat.le_of_not_lt hle)
          rw [hlive.1] at hunused
          cases hunused
      · exact h.known i p hp

theorem commitReservations (h : s.Origins) (hs : s.Sound) (hsane : s.Sane)
    (registrations : List Nat) : (s.commitReservations registrations).2.Origins := by
  have htaken : (takeOverAll registrations s).2.Origins :=
    h.same (.of_eq (takeOverAll_registrations ..) (takeOverAll_same ..).count)
  rcases commitReservations_cases s registrations with ⟨-, -, heq⟩ | ⟨hchecks, htake, heq⟩
  · rcases heq with heq | ⟨-, heq⟩
    · rw [heq]
      exact h
    · rw [heq]
      exact htaken
  · rw [heq]
    exact (htaken.publishAll registrations (takeOverAll_batch hs hsane hchecks htake)).same
      (.foldl .removeRegistration ..)

end Origins

end ShareServer

end SeamlessWorkflow
