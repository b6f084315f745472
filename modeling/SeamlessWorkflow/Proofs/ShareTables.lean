import SeamlessWorkflow.Share.Server

/-!
# The tables of the share server

The three tables find the registrations that have been published and not removed. While registrations
are replaced, the old ones may have lost their entries already.
-/

namespace SeamlessWorkflow

/-- The key of a registration in the table of top-level URLs. -/
def Reservation.topKey (reg : Reservation) : Option (List String) :=
  if reg.spec.toplevel then some reg.spec.path else none

/-- Its key in the table of the URLs in a namespace. -/
def Reservation.recordKey (reg : Reservation) : Option (String × List String) :=
  if reg.spec.toplevel then none else some (reg.inNamespace, reg.spec.path)

/-- Its key among the records of the namespaces. -/
def Reservation.tableKey (reg : Reservation) : Option (String × List String) :=
  some (reg.inNamespace, reg.spec.path)

namespace ShareServer

/-- A registration that has been published and not removed. -/
def Live (s : ShareServer) (r : Nat) : Prop :=
  (s.registrations r).closed = false ∧ (s.registrations r).staged = false

/-- What a registration is made for. -/
def place (s : ShareServer) (r : Nat) : Reservation := (s.registrations r).toReservation

/-- The tables hold the live registrations, but for those that are spare, or lost to the records of
their namespace. -/
structure Indexed (s : ShareServer) (spare lost : Nat → Prop) : Prop where
  top : Index.Covers (fun k => s.topRecords.lookup k) (fun r => (s.place r).topKey) s.Live spare
  record : Index.Covers (fun k => s.records.lookup k) (fun r => (s.place r).recordKey) s.Live spare
  table : Index.Covers (fun k => s.recordOf k.1 k.2) (fun r => (s.place r).tableKey) s.Live lost

/-- Unused identities are not live, and staged reservations are staged. -/
structure Sane (s : ShareServer) : Prop where
  unused : ∀ r, s.registrationCount ≤ r → (s.registrations r).closed = true
  staged : ∀ r ∈ s.stagedReservations,
    (s.registrations r).staged = true ∧ (s.registrations r).closed = false

/-- The tables, and what decides who belongs in them, are as before. -/
structure SamePlaces (s s' : ShareServer) : Prop where
  top : s'.topRecords = s.topRecords
  records : s'.records = s.records
  tables : ∀ name path, s'.recordOf name path = s.recordOf name path
  spaces : ∀ name, (s.namespaces.lookup name).isSome = true →
    (s'.namespaces.lookup name).isSome = true
  staged : s'.stagedReservations = s.stagedReservations
  count : s'.registrationCount = s.registrationCount
  places : ∀ r, s'.place r = s.place r ∧
    (s'.registrations r).staged = (s.registrations r).staged ∧
    (s'.registrations r).closed = (s.registrations r).closed

variable {s s' s'' : ShareServer} {spare spare' lost lost' : Nat → Prop}

theorem modify_registrations (s : ShareServer) (r i : Nat) (f : ShareRegistration → ShareRegistration) :
    (s.modify r f).registrations i = if i = r then f (s.registrations r) else s.registrations i := by
  unfold modify
  exact Function.update_apply ..

theorem recordOf_adjust (s : ShareServer) (name : String) (f : ShareNamespace → ShareNamespace)
    (n : String) (path : List String) :
    (s.modifyNamespace name f).recordOf n path =
      if n = name then ((s.namespaces.lookup n).map f).bind fun ns => ns.records.lookup path
      else s.recordOf n path := by
  unfold recordOf modifyNamespace
  dsimp only
  rw [Index.lookup_adjust]
  split <;> rfl

namespace SamePlaces

theorem refl (s : ShareServer) : SamePlaces s s :=
  ⟨rfl, rfl, fun _ _ => rfl, fun _ h => h, rfl, rfl, fun _ => ⟨rfl, rfl, rfl⟩⟩

theorem trans (h : SamePlaces s s') (h' : SamePlaces s' s'') : SamePlaces s s'' where
  top := h'.top.trans h.top
  records := h'.records.trans h.records
  tables name path := (h'.tables name path).trans (h.tables name path)
  spaces name hn := h'.spaces name (h.spaces name hn)
  staged := h'.staged.trans h.staged
  count := h'.count.trans h.count
  places r :=
    ⟨(h'.places r).1.trans (h.places r).1, (h'.places r).2.1.trans (h.places r).2.1,
      (h'.places r).2.2.trans (h.places r).2.2⟩

theorem foldl {f : ShareServer → Nat → ShareServer} (hf : ∀ s r, SamePlaces s (f s r)) :
    ∀ (l : List Nat) (s : ShareServer), SamePlaces s (l.foldl f s)
  | [], s => refl s
  | r :: l, s => (hf s r).trans (foldl hf l (f s r))

/-- What is not looked at may change. -/
theorem of_eq (htop : s'.topRecords = s.topRecords) (hrecords : s'.records = s.records)
    (hspaces : s'.namespaces = s.namespaces) (hstaged : s'.stagedReservations = s.stagedReservations)
    (hcount : s'.registrationCount = s.registrationCount)
    (hregs : s'.registrations = s.registrations) : SamePlaces s s' where
  top := htop
  records := hrecords
  tables name path := by
    unfold recordOf
    rw [hspaces]
  spaces name hn := by rwa [hspaces]
  staged := hstaged
  count := hcount
  places r := by
    unfold place
    rw [hregs]
    exact ⟨rfl, rfl, rfl⟩

/-- A registration may change in what does not decide its place. -/
theorem update {r : Nat} {reg : ShareRegistration} (htop : s'.topRecords = s.topRecords)
    (hrecords : s'.records = s.records) (hspaces : s'.namespaces = s.namespaces)
    (hstaged : s'.stagedReservations = s.stagedReservations)
    (hcount : s'.registrationCount = s.registrationCount)
    (hregs : s'.registrations = Function.update s.registrations r reg)
    (hreg : reg.toReservation = s.place r ∧ reg.staged = (s.registrations r).staged ∧
      reg.closed = (s.registrations r).closed) : SamePlaces s s' where
  top := htop
  records := hrecords
  tables name path := by
    unfold recordOf
    rw [hspaces]
  spaces name hn := by rwa [hspaces]
  staged := hstaged
  count := hcount
  places i := by
    unfold place
    rw [hregs, Function.update_apply]
    split
    · rename_i hi
      rw [hi]
      exact hreg
    · exact ⟨rfl, rfl, rfl⟩

theorem modifyNamespace (s : ShareServer) (name : String) {f : ShareNamespace → ShareNamespace}
    (hf : ∀ ns, (f ns).records = ns.records) : SamePlaces s (s.modifyNamespace name f) where
  top := rfl
  records := rfl
  tables n path := by
    rw [recordOf_adjust]
    split
    · unfold recordOf
      cases s.namespaces.lookup n with
      | none => rfl
      | some ns => simp only [Option.map_some, Option.bind_some, hf]
    · rfl
  spaces n hn := by
    unfold ShareServer.modifyNamespace
    dsimp only
    rw [Index.lookup_adjust]
    split
    · rwa [Option.isSome_map]
    · exact hn
  staged := rfl
  count := rfl
  places _ := ⟨rfl, rfl, rfl⟩

theorem live (h : SamePlaces s s') (r : Nat) : s'.Live r ↔ s.Live r := by
  unfold Live
  rw [(h.places r).2.1, (h.places r).2.2]

theorem sane (h : SamePlaces s s') (hs : s.Sane) : s'.Sane where
  unused r hr := by
    rw [(h.places r).2.2]
    exact hs.unused r (h.count ▸ hr)
  staged r hr := by
    rw [(h.places r).2.1, (h.places r).2.2]
    exact hs.staged r (h.staged ▸ hr)

theorem indexed (h : SamePlaces s s') (hi : s.Indexed spare lost) : s'.Indexed spare lost where
  top := hi.top.congr (fun k => by rw [h.top]) (fun r _ => by rw [(h.places r).1]) h.live
  record := hi.record.congr (fun k => by rw [h.records]) (fun r _ => by rw [(h.places r).1]) h.live
  table := hi.table.congr (fun k => h.tables k.1 k.2) (fun r _ => by rw [(h.places r).1]) h.live

end SamePlaces

/-! ## Removing -/

theorem mem_values {ns : ShareNamespace} {r : Nat} :
    r ∈ ns.values ↔ ∃ path, ns.records.lookup path = some r := by
  unfold ShareNamespace.values
  constructor
  · intro hr
    obtain ⟨e, he, rfl⟩ := List.mem_map.mp hr
    exact ⟨e.1, AList.mem_lookup_iff.mpr he⟩
  · rintro ⟨path, hpath⟩
    exact List.mem_map.mpr ⟨⟨path, r⟩, AList.mem_lookup_iff.mp hpath, rfl⟩

theorem removeRecords_live (s : ShareServer) (r j : Nat) :
    (s.removeRecords r).Live j ↔ s.Live j ∧ j ≠ r := by
  unfold Live removeRecords
  dsimp only
  rw [modify_registrations]
  by_cases hj : j = r
  · rw [if_pos hj]
    exact ⟨fun h => absurd h.1 (by simp), fun h => absurd hj h.2⟩
  · rw [if_neg hj]
    exact ⟨fun h => ⟨h, hj⟩, fun h => h.1⟩

theorem removeRecords_place (s : ShareServer) (r : Nat) : (s.removeRecords r).place = s.place := by
  funext j
  unfold place removeRecords
  dsimp only
  rw [modify_registrations]
  split
  · rename_i hj
    rw [hj]
  · rfl

theorem removeRecords_recordOf (s : ShareServer) (r : Nat) (name : String) (path : List String) :
    (s.removeRecords r).recordOf name path =
      if (s.place r).tableKey = some (name, path) ∧ s.recordOf name path = some r then none
      else s.recordOf name path := by
  have hadjust : (s.removeRecords r).recordOf name path =
      (s.modifyNamespace (s.place r).inNamespace fun ns =>
        { ns with records := Index.discard ns.records (s.place r).spec.path r }).recordOf name path := rfl
  rw [hadjust, recordOf_adjust]
  unfold Reservation.tableKey
  by_cases hn : name = (s.place r).inNamespace
  · rw [if_pos hn]
    unfold recordOf
    cases s.namespaces.lookup name with
    | none => simp
    | some ns =>
      simp only [Option.map_some, Option.bind_some, Index.lookup_discard, Option.some.injEq,
        Prod.mk.injEq, hn, true_and]
  · rw [if_neg hn, if_neg]
    rintro ⟨hkey, -⟩
    exact hn (Prod.mk.inj (Option.some.inj hkey)).1.symm

theorem Indexed.removeRecords (h : s.Indexed spare lost) (r : Nat) :
    (s.removeRecords r).Indexed spare lost where
  top := by
    rw [removeRecords_place]
    refine h.top.remove (i := r) (fun l hkey hfind => ?_) (fun l hfind => ?_)
      (removeRecords_live s r) fun j _ hj => hj
    · unfold Reservation.topKey at hkey
      split at hkey
      · rename_i htop
        have htop : (s.registrations r).spec.toplevel = true := htop
        have hpath : (s.registrations r).spec.path = l := Option.some.inj hkey
        show AList.lookup l (if (s.registrations r).spec.toplevel then _ else _) = none
        rw [if_pos htop, Index.lookup_discard, if_pos ⟨hpath, hfind⟩]
      · cases hkey
    · show AList.lookup l (if (s.registrations r).spec.toplevel then _ else _) = _
      split
      · rw [Index.lookup_discard, if_neg fun hl => hfind hl.2]
      · rfl
  record := by
    rw [removeRecords_place]
    refine h.record.remove (i := r) (fun l hkey hfind => ?_) (fun l hfind => ?_)
      (removeRecords_live s r) fun j _ hj => hj
    · unfold Reservation.recordKey at hkey
      split at hkey
      · cases hkey
      · rename_i htop
        have htop : ¬ (s.registrations r).spec.toplevel = true := htop
        have hpath : ((s.registrations r).inNamespace, (s.registrations r).spec.path) = l :=
          Option.some.inj hkey
        show AList.lookup l (if (s.registrations r).spec.toplevel then _ else _) = none
        rw [if_neg htop, Index.lookup_discard, if_pos ⟨hpath, hfind⟩]
    · show AList.lookup l (if (s.registrations r).spec.toplevel then _ else _) = _
      split
      · rfl
      · rw [Index.lookup_discard, if_neg fun hl => hfind hl.2]
  table := by
    rw [removeRecords_place]
    refine h.table.remove (i := r) (fun l hkey hfind => ?_) (fun l hfind => ?_)
      (removeRecords_live s r) fun j _ hj => hj
    · rw [removeRecords_recordOf, if_pos ⟨hkey, hfind⟩]
    · rw [removeRecords_recordOf, if_neg fun hl => hfind hl.2]

theorem Sane.removeRecords (h : s.Sane) (r : Nat) : (s.removeRecords r).Sane where
  unused i hi := by
    unfold ShareServer.removeRecords
    dsimp only
    rw [modify_registrations]
    split
    · rfl
    · exact h.unused i hi
  staged i hi := by
    have hmem : i ∈ s.stagedReservations ∧ i ≠ r := by
      have := List.mem_filter.mp hi
      exact ⟨this.1, by simpa using this.2⟩
    unfold ShareServer.removeRecords
    dsimp only
    rw [modify_registrations, if_neg hmem.2]
    exact h.staged i hmem.1

/-- A namespace is dropped in which nothing is left that is not lost. -/
theorem Indexed.eraseNamespace (h : s.Indexed spare lost) {name : String}
    (hname : ∀ r, s.Live r → ¬ lost r → (s.place r).inNamespace ≠ name) :
    Indexed { s with namespaces := s.namespaces.erase name } spare lost where
  top := h.top
  record := h.record
  table := by
    have hof : ∀ n path, recordOf { s with namespaces := s.namespaces.erase name } n path =
        if n = name then none else s.recordOf n path := by
      intro n path
      unfold recordOf
      dsimp only
      split
      · rename_i hn
        rw [hn, AList.lookup_erase, Option.bind_none]
      · rename_i hn
        rw [AList.lookup_erase_ne hn]
    refine ⟨fun {k r} hf => ?_, fun {k r} hl hs hk => ?_⟩
    · rw [hof] at hf
      split at hf
      · cases hf
      · exact h.table.sound hf
    · have hf := h.table.complete hl hs hk
      have hn : k.1 ≠ name := by
        intro hn
        refine hname r hl hs ?_
        rw [← hn]
        exact congrArg Prod.fst (Option.some.inj hk)
      rw [hof, if_neg hn]
      exact hf

/-- In a namespace without records only lost registrations are left. -/
theorem Indexed.lost_of_isEmpty (h : s.Indexed spare lost) {name : String} {ns : ShareNamespace}
    (hns : s.namespaces.lookup name = some ns) (hempty : ns.values.isEmpty = true) (r : Nat)
    (hr : s.Live r) (hlost : ¬ lost r) : (s.place r).inNamespace ≠ name := by
  intro hname
  have hf := h.table.complete hr hlost (k := (name, (s.place r).spec.path)) (by
    unfold Reservation.tableKey
    rw [hname])
  unfold recordOf at hf
  dsimp only at hf
  rw [hns, Option.bind_some] at hf
  have hmem := mem_values.mpr ⟨_, hf⟩
  rw [List.isEmpty_iff.mp hempty] at hmem
  cases hmem

theorem Indexed.removeRegistration (h : s.Indexed spare lost) (r : Nat) :
    (s.removeRegistration r).Indexed spare lost := by
  unfold ShareServer.removeRegistration
  dsimp only
  split
  · exact h
  · split
    · rename_i hover
      refine (h.removeRecords r).eraseNamespace fun i hi hlost => ?_
      rw [Bool.and_eq_true] at hover
      have hclaim := hover.2
      unfold claimIsOver at hclaim
      rw [Bool.and_eq_true, Option.any_eq_true] at hclaim
      obtain ⟨ns, hns, hempty⟩ := hclaim.1
      rw [Bool.and_eq_true] at hempty
      exact (h.removeRecords r).lost_of_isEmpty hns hempty.2 i hi hlost
    · exact h.removeRecords r

theorem Sane.removeRegistration (h : s.Sane) (r : Nat) : (s.removeRegistration r).Sane := by
  unfold ShareServer.removeRegistration
  dsimp only
  split
  · exact h
  · split
    · exact ⟨(h.removeRecords r).unused, (h.removeRecords r).staged⟩
    · exact h.removeRecords r

/-! ## Entering -/

theorem firstError_ok {ε : Type} {checks : List (Bool × ε)} (h : firstError checks = .ok ()) :
    ∀ check ∈ checks, check.1 = false := by
  induction checks with
  | nil => exact fun check hc => absurd hc (by simp)
  | cons c checks ih =>
    unfold firstError at h
    split at h
    · cases h
    · rename_i hc
      intro check hcheck
      rcases List.mem_cons.mp hcheck with rfl | hrest
      · exact Bool.not_eq_true _ ▸ hc
      · exact ih h check hrest

theorem firstError_eq {ε : Type} {checks : List (Bool × ε)} (h : ∀ check ∈ checks, check.1 = false) :
    firstError checks = .ok () := by
  induction checks with
  | nil => rfl
  | cons c checks ih =>
    unfold firstError
    rw [h c (List.mem_cons_self ..), if_neg Bool.false_ne_true]
    exact ih fun check hc => h check (List.mem_cons_of_mem _ hc)

theorem claimNamespace_same (s : ShareServer) (name : String) (owner : Option Owner) (staged : Bool) :
    SamePlaces s (s.claimNamespace name owner staged) := by
  unfold claimNamespace
  split
  · exact .refl s
  · rename_i hnone
    have hlookup : s.namespaces.lookup name = none := by simpa using hnone
    refine ⟨rfl, rfl, fun n path => ?_, fun n hn => ?_, rfl, rfl, fun _ => ⟨rfl, rfl, rfl⟩⟩
    · unfold recordOf
      dsimp only
      by_cases hn : n = name
      · rw [hn, AList.lookup_insert, hlookup]
        rfl
      · rw [AList.lookup_insert_ne hn]
    · dsimp only
      by_cases hname : n = name
      · rw [hname, AList.lookup_insert]
        rfl
      · rwa [AList.lookup_insert_ne hname]

theorem claimNamespace_isSome (s : ShareServer) (name : String) (owner : Option Owner)
    (staged : Bool) : ((s.claimNamespace name owner staged).namespaces.lookup name).isSome = true := by
  unfold claimNamespace
  split
  · assumption
  · dsimp only
    rw [AList.lookup_insert]
    rfl

theorem allocate_registrations (s : ShareServer) (reg : ShareRegistration) (i : Nat) :
    (s.allocate reg).registrations i = if i = s.registrationCount then reg else s.registrations i := by
  unfold allocate
  exact Function.update_apply ..

theorem Sane.not_live (h : s.Sane) : ¬ s.Live s.registrationCount := fun hl => by
  have := h.unused _ (Nat.le_refl _)
  rw [hl.1] at this
  cases this

theorem Sane.allocate (h : s.Sane) (reg : ShareRegistration) : (s.allocate reg).Sane where
  unused r hr := by
    have hr' : s.registrationCount + 1 ≤ r := hr
    rw [allocate_registrations, if_neg (by omega)]
    exact h.unused r (by omega)
  staged r hr := by
    have hs := h.staged r hr
    have hne : r ≠ s.registrationCount := by
      rintro rfl
      have := h.unused _ (Nat.le_refl _)
      rw [hs.2] at this
      cases this
    rw [allocate_registrations, if_neg hne]
    exact hs

/-- A staged registration enters no table. -/
theorem Indexed.allocateStaged (h : s.Indexed spare lost) (hs : s.Sane) {reg : ShareRegistration}
    (hreg : reg.staged = true) : (s.allocate reg).Indexed spare lost := by
  have hlive : ∀ j, (s.allocate reg).Live j ↔ s.Live j := by
    intro j
    unfold Live
    rw [allocate_registrations]
    by_cases hj : j = s.registrationCount
    · rw [if_pos hj, hj]
      refine ⟨fun hl => ?_, fun hl => absurd hl hs.not_live⟩
      rw [hreg] at hl
      cases hl.2
    · rw [if_neg hj]
  have hplace : ∀ j, s.Live j → (s.allocate reg).place j = s.place j := by
    intro j hj
    unfold place
    rw [allocate_registrations, if_neg]
    rintro rfl
    exact hs.not_live hj
  exact ⟨h.top.congr (fun _ => rfl) (fun j hj => by rw [hplace j hj]) hlive,
    h.record.congr (fun _ => rfl) (fun j hj => by rw [hplace j hj]) hlive,
    h.table.congr (fun _ => rfl) (fun j hj => by rw [hplace j hj]) hlive⟩

/-- A new registration is live at once, before it is entered. -/
theorem Indexed.allocateLive (h : s.Indexed spare lost) (hs : s.Sane) {reg : ShareRegistration}
    (hreg : reg.staged = false) (hclosed : reg.closed = false) :
    (s.allocate reg).Indexed (fun j => j = s.registrationCount ∨ spare j)
      (fun j => j = s.registrationCount ∨ lost j) := by
  have hlive : ∀ j, (s.allocate reg).Live j ↔ j = s.registrationCount ∨ s.Live j := by
    intro j
    unfold Live
    rw [allocate_registrations]
    by_cases hj : j = s.registrationCount
    · rw [if_pos hj]
      exact ⟨fun _ => Or.inl hj, fun _ => ⟨hclosed, hreg⟩⟩
    · rw [if_neg hj]
      exact ⟨Or.inr, fun hl => hl.resolve_left hj⟩
  have hplace : ∀ j, s.Live j → (s.allocate reg).place j = s.place j := by
    intro j hj
    unfold place
    rw [allocate_registrations, if_neg]
    rintro rfl
    exact hs.not_live hj
  exact ⟨h.top.appear (fun j hj => by rw [hplace j hj]) hlive (fun _ => Or.inr) (Or.inl rfl),
    h.record.appear (fun j hj => by rw [hplace j hj]) hlive (fun _ => Or.inr) (Or.inl rfl),
    h.table.appear (fun j hj => by rw [hplace j hj]) hlive (fun _ => Or.inr) (Or.inl rfl)⟩

/-- A live registration is entered into the tables; what it finds there becomes spare. -/
theorem Indexed.putRecord (h : s.Indexed spare lost) {r : Nat} (hr : s.Live r)
    (hns : (s.namespaces.lookup (s.place r).inNamespace).isSome = true) :
    (s.putRecord r).Indexed
      (fun j => j ≠ r ∧ (spare j ∨ s.current (s.place r).inNamespace (s.place r).spec = some j))
      (fun j => j ≠ r ∧
        (lost j ∨ s.recordOf (s.place r).inNamespace (s.place r).spec.path = some j)) := by
  have hlive : ∀ j, (s.putRecord r).Live j ↔ j = r ∨ s.Live j :=
    fun j => ⟨Or.inr, fun hj => hj.elim (fun hj => hj ▸ hr) id⟩
  have htop : (s.putRecord r).topRecords =
      if (s.place r).spec.toplevel then s.topRecords.insert (s.place r).spec.path r
      else s.topRecords := rfl
  have hrecords : (s.putRecord r).records =
      if (s.place r).spec.toplevel then s.records
      else s.records.insert ((s.place r).inNamespace, (s.place r).spec.path) r := rfl
  have htable : (fun k : String × List String => (s.putRecord r).recordOf k.1 k.2) =
      Function.update (fun k => s.recordOf k.1 k.2)
        ((s.place r).inNamespace, (s.place r).spec.path) (some r) := by
    funext k
    have hadjust : (s.putRecord r).recordOf k.1 k.2 =
        (s.modifyNamespace (s.place r).inNamespace fun ns =>
          { ns with records := ns.records.insert (s.place r).spec.path r }).recordOf k.1 k.2 := rfl
    rw [hadjust, recordOf_adjust, Function.update_apply]
    obtain ⟨ns, hns⟩ := Option.isSome_iff_exists.mp hns
    by_cases hn : k.1 = (s.place r).inNamespace
    · rw [if_pos hn, hn, hns, Option.map_some, Option.bind_some]
      dsimp only
      by_cases hp : k.2 = (s.place r).spec.path
      · rw [hp, AList.lookup_insert, if_pos (Prod.ext hn hp)]
      · rw [AList.lookup_insert_ne hp, if_neg fun hk => hp (congrArg Prod.snd hk)]
        unfold recordOf
        rw [hns, Option.bind_some]
    · rw [if_neg hn, if_neg fun hk => hn (congrArg Prod.fst hk)]
  refine ⟨?_, ?_, ?_⟩
  · rw [htop]
    by_cases hl : (s.place r).spec.toplevel = true
    · have hkey : (s.place r).topKey = some (s.place r).spec.path := by
        unfold Reservation.topKey
        rw [if_pos hl]
      rw [if_pos hl, Index.lookup_insert]
      refine h.top.insert hkey hlive (fun j hj hs => ⟨hj, Or.inl hs⟩) fun j hj hf => ⟨hj, Or.inr ?_⟩
      unfold current
      rw [if_pos hl]
      exact hf
    · have hkey : (s.place r).topKey = none := by
        unfold Reservation.topKey
        rw [if_neg hl]
      rw [if_neg hl]
      exact h.top.insertKeyless hkey hlive fun j hj hs => ⟨hj, Or.inl hs⟩
  · rw [hrecords]
    by_cases hl : (s.place r).spec.toplevel = true
    · have hkey : (s.place r).recordKey = none := by
        unfold Reservation.recordKey
        rw [if_pos hl]
      rw [if_pos hl]
      exact h.record.insertKeyless hkey hlive fun j hj hs => ⟨hj, Or.inl hs⟩
    · have hkey : (s.place r).recordKey =
          some ((s.place r).inNamespace, (s.place r).spec.path) := by
        unfold Reservation.recordKey
        rw [if_neg hl]
      rw [if_neg hl, Index.lookup_insert]
      refine h.record.insert hkey hlive (fun j hj hs => ⟨hj, Or.inl hs⟩)
        fun j hj hf => ⟨hj, Or.inr ?_⟩
      unfold current
      rw [if_neg hl]
      exact hf
  · rw [htable]
    exact h.table.insert rfl hlive (fun j hj hs => ⟨hj, Or.inl hs⟩) fun j hj hf => ⟨hj, Or.inr hf⟩

end ShareServer

end SeamlessWorkflow
