import SeamlessWorkflow.Share.Updates
import SeamlessWorkflow.Proofs.ShareAttends

/-!
# The list of a namespace

What the steps of the server that end with a broadcast do to the list of a namespace: a new list has
the versions of the old one, and an update raises the entry of its registration.
-/

namespace SeamlessWorkflow

namespace ShareServer

variable {s s' s'' : ShareServer} {name : String} {key : List String} {r : Nat} {v : Version}

theorem listing_eq_some : s.listing name key = some v ↔
    ∃ r, s.recordOf name key = some r ∧ s.serves r = true ∧ s.version r = v := by
  unfold listing
  rw [Option.map_eq_some_iff]
  constructor
  · rintro ⟨r, hr, hv⟩
    obtain ⟨hrecord, hserves⟩ := Option.filter_eq_some_iff.mp hr
    exact ⟨r, hrecord, hserves, hv⟩
  · rintro ⟨r, hrecord, hserves, hv⟩
    exact ⟨r, Option.filter_eq_some_iff.mpr ⟨hrecord, hserves⟩, hv⟩

/-! ## Lists that are broadcast -/

/-- Records are only removed, and every registration keeps its version. -/
structure Shrinks (s s' : ShareServer) : Prop where
  records : ∀ name key r, s'.recordOf name key = some r → s.recordOf name key = some r
  version : ∀ r, s'.version r = s.version r

theorem Shrinks.trans (h : Shrinks s s') (h' : Shrinks s' s'') : Shrinks s s'' :=
  ⟨fun name key r hr => h.records name key r (h'.records name key r hr),
    fun r => (h'.version r).trans (h.version r)⟩

theorem Shrinks.of_eq (hrecords : ∀ name key, s'.recordOf name key = s.recordOf name key)
    (hversion : ∀ r, s'.version r = s.version r) : Shrinks s s' := by
  refine ⟨fun name key r hr => ?_, hversion⟩
  rw [← hrecords]
  exact hr

/-- What is listed before and after has the same version. -/
theorem Shrinks.listing (h : Shrinks s s') {old new : Version} (hold : s.listing name key = some old)
    (hnew : s'.listing name key = some new) : new = old := by
  obtain ⟨r, hr, -, hv⟩ := listing_eq_some.mp hold
  obtain ⟨r', hr', -, hv'⟩ := listing_eq_some.mp hnew
  have hrecord := h.records name key r' hr'
  rw [hr] at hrecord
  cases hrecord
  rw [← hv, ← hv', h.version]

theorem shrinks_modify {f : ShareRegistration → ShareRegistration}
    (hf : (f (s.registrations r)).marker = (s.registrations r).marker ∧
      (f (s.registrations r)).checksum = (s.registrations r).checksum) : Shrinks s (s.modify r f) := by
  refine .of_eq (fun _ _ => rfl) fun i => ?_
  unfold ShareServer.version
  rw [modify_registrations]
  split
  · rename_i hi
    rw [hi, hf.1, hf.2]
  · rfl

theorem shrinks_complete (s : ShareServer) (future result : Option Nat) :
    Shrinks s (s.complete future result) := by
  refine .of_eq (complete_same ..).tables ?_
  exact (Quiet.complete s future result).version

theorem shrinks_activate (s : ShareServer) (r : Nat) : Shrinks s (s.activate r) := by
  unfold ShareServer.activate
  split
  · exact .of_eq (fun _ _ => rfl) fun _ => rfl
  · exact shrinks_modify ⟨rfl, rfl⟩

theorem shrinks_completeReattach (s : ShareServer) (r : Nat) : Shrinks s (s.completeReattach r) := by
  unfold ShareServer.completeReattach
  dsimp only
  split
  · exact .of_eq (fun _ _ => rfl) fun _ => rfl
  · split
    · exact .of_eq (fun _ _ => rfl) fun _ => rfl
    · exact (shrinks_modify ⟨rfl, rfl⟩).trans (shrinks_complete ..)

theorem shrinks_erase (s : ShareServer) (name : String) :
    Shrinks s { s with namespaces := s.namespaces.erase name } := by
  refine ⟨fun n key r hr => ?_, fun _ => rfl⟩
  unfold recordOf at hr ⊢
  dsimp only at hr
  by_cases hn : n = name
  · rw [hn, AList.lookup_erase] at hr
    cases hr
  · rw [AList.lookup_erase_ne hn] at hr
    exact hr

theorem shrinks_removeRegistration (s : ShareServer) (r : Nat) : Shrinks s (s.removeRegistration r) := by
  have hremoved : Shrinks s (s.removeRecords r) := by
    refine ⟨fun n key i hi => ?_, fun i => ?_⟩
    · rw [removeRecords_recordOf] at hi
      split at hi
      · cases hi
      · exact hi
    · unfold ShareServer.version removeRecords
      dsimp only
      rw [modify_registrations]
      split
      · rename_i hi
        rw [hi]
      · rfl
  unfold ShareServer.removeRegistration
  dsimp only
  split
  · exact .of_eq (fun _ _ => rfl) fun _ => rfl
  · split
    · exact hremoved.trans (shrinks_erase ..)
    · exact hremoved

theorem shrinks_expire (l : List Nat) : ∀ s : ShareServer, Shrinks s (l.foldl expire s) := by
  induction l with
  | nil => exact fun s => .of_eq (fun _ _ => rfl) fun _ => rfl
  | cons r l ih =>
    intro s
    have hexpire : Shrinks s (s.expire r) :=
      (shrinks_complete ..).trans (shrinks_removeRegistration ..)
    exact hexpire.trans (ih _)

theorem shrinks_modifyNamespace {f : ShareNamespace → ShareNamespace}
    (hf : ∀ ns, (f ns).records = ns.records) : Shrinks s (s.modifyNamespace name f) := by
  refine .of_eq (fun n key => ?_) fun _ => rfl
  rw [recordOf_adjust]
  split
  · unfold recordOf
    cases s.namespaces.lookup n with
    | none => rfl
    | some ns => exact congrArg (AList.lookup key) (hf ns)
  · rfl

theorem shrinks_endHold (s : ShareServer) (name : String) : Shrinks s (s.endHold name) := by
  have hended : Shrinks s (s.modifyNamespace name fun ns =>
      { ns with holdUntil := ns.holdUntil.filter (s.now < ·) }) :=
    shrinks_modifyNamespace fun _ => rfl
  unfold ShareServer.endHold
  dsimp only
  split
  · exact hended
  · split
    · exact hended.trans (shrinks_erase ..)
    · split
      · exact hended
      · exact hended.trans (shrinks_modifyNamespace fun _ => rfl)

theorem shrinks_expireHolds (s : ShareServer) (name : String) : Shrinks s (s.expireHolds name) := by
  unfold ShareServer.expireHolds
  split
  · exact .of_eq (fun _ _ => rfl) fun _ => rfl
  · split
    · exact (shrinks_expire ..).trans (shrinks_endHold ..)
    · exact .of_eq (fun _ _ => rfl) fun _ => rfl

/-! ## Values that are broadcast -/

/-- The registration that is listed under the key of another one, if any, is that one. -/
def ListedAlone (s : ShareServer) (r : Nat) : Prop :=
  ∀ i ∈ s.recordOf (s.registrations r).inNamespace (s.registrations r).spec.path,
    s.serves i = true → i = r

/-- Installing a value raises the version of its registration. -/
theorem install_registrations (s : ShareServer) {checksum : Option Checksum}
    (hchanged : checksum ≠ (s.registrations r).checksum) (i : Nat) :
    (s.install r checksum).serves i = s.serves i ∧
      (s.install r checksum).version i =
        if i = r then ((s.registrations r).marker + 1, checksum) else s.version i := by
  unfold install
  dsimp only
  rw [if_neg hchanged]
  by_cases hi : i = r
  · subst hi
    simp [serves, ShareServer.version, modify_registrations]
  · simp [serves, ShareServer.version, modify_registrations, hi]

theorem install_recordOf (s : ShareServer) (r : Nat) (checksum : Option Checksum) (name : String)
    (key : List String) : (s.install r checksum).recordOf name key = s.recordOf name key := by
  unfold install
  dsimp only
  split <;> rfl

/-- A value that is installed is listed under the key of its registration, or not at all. -/
theorem install_listing (hs : s.Sound) {checksum : Option Checksum}
    (hchanged : checksum ≠ (s.registrations r).checksum) (halone : s.ListedAlone r) :
    (s.listing (s.registrations r).inNamespace (s.registrations r).spec.path = none ∧
      (s.install r checksum).listing (s.registrations r).inNamespace =
        s.listing (s.registrations r).inNamespace) ∨
    ∃ old : Version, s.listing (s.registrations r).inNamespace (s.registrations r).spec.path = some old ∧
      old.1 < (s.registrations r).marker + 1 ∧
      (s.install r checksum).listing (s.registrations r).inNamespace =
        Function.update (s.listing (s.registrations r).inNamespace) (s.registrations r).spec.path
          (some ((s.registrations r).marker + 1, checksum)) := by
  have hlisting : ∀ key, (s.install r checksum).listing (s.registrations r).inNamespace key =
      ((s.recordOf (s.registrations r).inNamespace key).filter s.serves).map fun i =>
        if i = r then ((s.registrations r).marker + 1, checksum) else s.version i := by
    intro key
    have hserves : (s.install r checksum).serves = s.serves :=
      funext fun i => (install_registrations s hchanged i).1
    unfold listing
    rw [install_recordOf, hserves]
    refine congrArg (fun f => Option.map f _) (funext fun i => ?_)
    exact (install_registrations s hchanged i).2
  have hother : ∀ key, key ≠ (s.registrations r).spec.path →
      (s.install r checksum).listing (s.registrations r).inNamespace key =
        s.listing (s.registrations r).inNamespace key := by
    intro key hkey
    rw [hlisting]
    unfold listing
    cases hrecord : s.recordOf (s.registrations r).inNamespace key with
    | none => rfl
    | some i =>
      -- the record of another key is of another registration
      have hplace := (hs.table.sound (k := ((s.registrations r).inNamespace, key)) hrecord).2
      have hi : i ≠ r := by
        rintro rfl
        exact hkey (Prod.mk.inj (Option.some.inj hplace)).2.symm
      by_cases hserves : s.serves i = true
      · rw [Option.filter_some_pos hserves, Option.map_some, Option.map_some, if_neg hi]
        rfl
      · rw [Option.filter_some_neg (Bool.eq_false_iff.mpr hserves)]
        rfl
  cases hold : s.listing (s.registrations r).inNamespace (s.registrations r).spec.path with
  | none =>
    refine Or.inl ⟨rfl, funext fun key => ?_⟩
    by_cases hkey : key = (s.registrations r).spec.path
    · rw [hkey, hold, hlisting]
      unfold listing at hold
      rw [Option.map_eq_none_iff] at hold
      rw [hold]
      rfl
    · exact hother key hkey
  | some old =>
    obtain ⟨i, hrecord, hserves, hversion⟩ := listing_eq_some.mp hold
    have hi : i = r := halone i hrecord hserves
    subst hi
    refine Or.inr ⟨old, rfl, ?_, funext fun key => ?_⟩
    · rw [← hversion]
      exact Nat.lt_succ_self _
    · by_cases hkey : key = (s.registrations i).spec.path
      · rw [hkey, Function.update_self, hlisting, hrecord, Option.filter_some_pos hserves,
          Option.map_some, if_pos rfl]
      · rw [Function.update_of_ne hkey]
        exact hother key hkey

end ShareServer

/-! ## What is broadcast -/

namespace UpdateServer

open ShareServer

variable {s s' : ShareServer} {name : String} {tells : Bool} {event : ShareServer.Event}

/-- After a step that broadcasts a list, nothing is listed that was not recorded before. -/
theorem shrinks_of_shares (hstep : s.step event = some s')
    (h : announcement s tells event = some (name, .shares)) : ShareServer.Shrinks s s' := by
  cases event with
  | activate r =>
    obtain ⟨-, heq⟩ := Option.ite_none_right_eq_some.mp hstep
    cases heq
    exact shrinks_activate s r
  | completeReattach r =>
    obtain ⟨-, heq⟩ := Option.ite_none_right_eq_some.mp hstep
    cases heq
    exact shrinks_completeReattach s r
  | expireHolds n =>
    obtain ⟨-, heq⟩ := Option.ite_none_right_eq_some.mp hstep
    cases heq
    exact shrinks_expireHolds s n
  | removeNext task =>
    unfold ShareServer.step at hstep
    dsimp only at hstep
    split at hstep
    · cases hstep
    · rename_i registration r rest closes _
      cases hstep
      exact (shrinks_removeRegistration s r).trans (.of_eq (fun _ _ => rfl) fun _ => rfl)
    · rename_i hnone
      unfold announcement at h
      dsimp only at h
      split at h
      · rename_i heq
        rw [hnone] at heq
        cases heq
      · cases h
  | deliver r seq checksum expected =>
    unfold announcement at h
    dsimp only at h
    split at h
    · cases h
    · cases h
  | installPut i value =>
    unfold announcement at h
    dsimp only at h
    split at h
    · split at h
      · split at h
        · cases h
        · cases h
      · cases h
    · cases h
  | _ => cases h

/-- A step that broadcasts a value has installed it. -/
theorem installs_of_update {r : Nat} (hstep : s.step event = some s')
    (h : announcement s tells event = some (name, .update r)) :
    name = (s.registrations r).inNamespace ∧ ∃ checksum, checksum ≠ (s.registrations r).checksum ∧
      (∀ n, s'.listing n = (s.install r checksum).listing n) ∧
      s'.registrations = (s.install r checksum).registrations := by
  cases event with
  | deliver r' seq checksum expected =>
    obtain ⟨-, heq⟩ := Option.ite_none_right_eq_some.mp hstep
    cases heq
    obtain ⟨⟨hwritten, hchanged⟩, heq⟩ := Option.ite_none_right_eq_some.mp h
    cases heq
    refine ⟨rfl, checksum, hchanged, ?_⟩
    unfold ShareServer.deliver at hwritten ⊢
    dsimp only at hwritten ⊢
    split at hwritten
    · cases hwritten
    · split at hwritten
      · cases hwritten
      · rename_i hopen hfingerprint
        rw [if_neg hopen, if_neg hfingerprint]
        exact ⟨fun _ => rfl, rfl⟩
  | installPut i value =>
    unfold ShareServer.step at hstep
    unfold announcement at h
    dsimp only at hstep h
    split at h
    · rename_i r' marker hput
      rw [hput] at hstep
      cases hstep
      split at h
      · rename_i checksum marker' hok
        obtain ⟨hchanged, heq⟩ := Option.ite_none_right_eq_some.mp h
        cases heq
        refine ⟨rfl, value, hchanged, ?_⟩
        unfold ShareServer.installPut at hok ⊢
        split at hok
        · cases hok
        · dsimp only at hok ⊢
          split at hok
          · cases hok
          · split at hok
            · cases hok
            · rename_i hopen hmarker
              rw [if_neg hopen, if_neg hmarker]
              exact ⟨fun _ => rfl, rfl⟩
      · cases h
    · cases h
  | activate r' =>
    unfold announcement at h
    dsimp only at h
    split at h
    · cases h
    · cases h
  | completeReattach r' =>
    unfold announcement at h
    dsimp only at h
    split at h
    · cases h
    · cases h
  | expireHolds n =>
    unfold announcement at h
    dsimp only at h
    split at h
    · split at h
      · cases h
      · cases h
    · cases h
  | removeNext task =>
    unfold announcement at h
    dsimp only at h
    split at h
    · split at h
      · cases h
      · cases h
    · cases h
  | _ => cases h

end UpdateServer

end SeamlessWorkflow
