import SeamlessWorkflow.Proofs.ShareMarkers

/-!
# PUTs that wait

A PUT waits for the future of the registration that it has found. The wait is over when the registration
is no longer held or re-attaching, by itself or through the one that re-attaches to it, and its
namespace is not closing.
-/

namespace SeamlessWorkflow

namespace ShareServer

variable {s s' s'' : ShareServer} {spare lost : Nat → Prop}

/-! ## What the tables find is live -/

/-- What the tables find is live. This holds whatever they do not find. -/
def Sound (s : ShareServer) : Prop := s.Indexed (fun _ => True) fun _ => True

theorem Indexed.isSound (h : s.Indexed spare lost) : s.Sound :=
  ⟨h.top.weaken fun _ _ _ => trivial, h.record.weaken fun _ _ _ => trivial,
    h.table.weaken fun _ _ _ => trivial⟩

namespace Sound

theorem reserve (h : s.Sound) (hs : s.Sane) {name : String} {spec : ServedSpec} {owner : Option Owner}
    {replaces : List Nat} {staged : Bool}
    (hres : s.reserve name spec owner replaces staged = .ok s') : s'.Sound ∧ s'.Sane := by
  obtain ⟨place, reg, hreg, hname, -, -, -, -, hs'⟩ := reserve_cases hres
  have hclaim := claimNamespace_same s name owner staged
  have hspace := claimNamespace_isSome s name owner staged
  have hi := hclaim.indexed h
  have hsane := hclaim.sane hs
  cases hstaged : staged with
  | true =>
    rw [hstaged] at hs' hreg hclaim hi hsane
    rw [hs', if_pos rfl]
    have hlist : s.stagedReservations ++ [s.registrationCount] =
        (s.claimNamespace name owner true).stagedReservations ++
          [(s.claimNamespace name owner true).registrationCount] := by
      rw [hclaim.staged, hclaim.count]
    have hstaged : reg.staged = true := by rw [hreg]
    have hclosed : reg.closed = false := by rw [hreg]
    obtain ⟨hi', hs'⟩ := hi.addStaged hsane hstaged hclosed hlist
    exact ⟨hi'.isSound, hs'⟩
  | false =>
    rw [hstaged] at hs' hreg hclaim hi hsane hspace
    rw [hs', if_neg (by simp), ← hclaim.count]
    generalize s.claimNamespace name owner false = t at *
    have hnew : (t.allocate reg).registrations t.registrationCount = reg := by
      rw [allocate_registrations, if_pos rfl]
    have hplace : (t.allocate reg).place t.registrationCount = reg.toReservation := by
      unfold ShareServer.place
      rw [hnew]
    have hnamed : reg.inNamespace = name := by rw [hreg, ← hname]
    have halloc : (t.allocate reg).Sound :=
      (hi.allocateLive hsane (by rw [hreg]) (by rw [hreg])).isSound
    refine ⟨?_, (hsane.allocate reg).placeUnstaged _⟩
    -- the new registration stays, and so does its namespace
    have hlive : (t.allocate reg).Live t.registrationCount := by
      unfold Live
      rw [hnew, hreg]
      exact ⟨rfl, rfl⟩
    have hend : ∀ u : ShareServer, u.Sound → u.Live t.registrationCount →
        u.place t.registrationCount = reg.toReservation →
        (u.namespaces.lookup name).isSome = true →
        ((u.takeOver reg.inNamespace reg.owner).putRecord t.registrationCount).Sound := by
      intro u hu hulive huplace huspace
      rw [← hnamed] at huspace
      have hsame := takeOver_same u reg.inNamespace reg.owner
      refine ((hsame.indexed hu).putRecord ((hsame.live _).mpr hulive) ?_).isSound
      rw [(hsame.places _).1, huplace]
      exact hsame.spaces _ huspace
    unfold ShareServer.placeUnstaged
    dsimp only
    rw [hnew]
    split
    · exact hend _ halloc hlive hplace hspace
    · rename_i held hheld
      have hadopt := adoptHeldRegistration_same (t.allocate reg) t.registrationCount held
      have hfound := (heldRegistrationFor_found hheld).1
      have hold : t.Live held := hi.found_live hfound
      have hne : t.registrationCount ≠ held := by
        rintro rfl
        exact hsane.not_live hold
      have hstaged : (((t.allocate reg).adoptHeldRegistration t.registrationCount
          held).registrations held).staged = false := by
        rw [(hadopt.places held).2.1, allocate_registrations, if_neg (Ne.symm hne)]
        exact hold.2
      refine hend _ ((hadopt.indexed halloc).removeRegistration held).isSound ?_ ?_ ?_
      · exact (removeRegistration_live ..).mpr ⟨(hadopt.live _).mpr hlive, hne⟩
      · rw [removeRegistration_place, (hadopt.places _).1, hplace]
      · exact removeRegistration_spaces hstaged (hadopt.spaces _ hspace)

theorem commitReservations (h : s.Sound) (hs : s.Sane) (registrations : List Nat) :
    (s.commitReservations registrations).2.Sound ∧ (s.commitReservations registrations).2.Sane := by
  rcases commitReservations_cases s registrations with ⟨-, hsame, -⟩ | ⟨hchecks, htake, heq⟩
  · exact ⟨hsame.indexed h, hsame.sane hs⟩
  · have hsame := takeOverAll_same registrations s
    obtain ⟨hstaged, hnodup⟩ := commitChecks_ok hchecks
    have hspaces := takeOverAll_ok registrations htake
    obtain ⟨hi, hsane⟩ := Indexed.publishBatch registrations (hsame.indexed h) (hsame.sane hs) hnodup
      fun r hr => ⟨hsame.staged ▸ hstaged r hr, by
        rw [(hsame.places r).1]
        exact hsame.spaces _ (hspaces r hr)⟩
    rw [heq]
    exact ⟨Indexed.foldl (fun s r h => h.removeRegistration r) _ _ hi.isSound,
      Sane.foldl (fun s r h => h.removeRegistration r) _ _ hsane⟩

/-- Every step keeps the tables sound. -/
theorem step (h : s.Sound) (hs : s.Sane) {event : Event} (hstep : step s event = some s') :
    s'.Sound ∧ s'.Sane := by
  by_cases htouches : event.touchesTables = true
  swap
  · have hsame := step_same (Bool.eq_false_iff.mpr htouches) hstep
    exact ⟨hsame.indexed h, hsame.sane hs⟩
  have hvacant : ∀ name, s.Vacant (fun _ => True) name := fun name r _ hlost => absurd trivial hlost
  cases event with
  | reserve name spec owner replaces staged =>
    dsimp only [ShareServer.step] at hstep
    split at hstep
    · rename_i t hres
      obtain rfl := Option.some.inj hstep
      exact h.reserve hs hres
    · obtain rfl := Option.some.inj hstep
      exact ⟨h, hs⟩
  | commitReservations registrations =>
    obtain rfl := Option.some.inj hstep
    exact h.commitReservations hs registrations
  | expireHolds name =>
    dsimp only [ShareServer.step] at hstep
    split at hstep
    · obtain rfl := Option.some.inj hstep
      exact Indexed.expireHolds h hs name
    · cases hstep
  | closeNamespace name owner =>
    dsimp only [ShareServer.step] at hstep
    split at hstep
    · obtain rfl := Option.some.inj hstep
      exact Indexed.closeNamespace h hs name owner
    · cases hstep
  | releaseNamespace name owner =>
    dsimp only [ShareServer.step] at hstep
    split at hstep
    · cases hstep
    · obtain rfl := Option.some.inj hstep
      exact Indexed.releaseNamespace h hs (hvacant name)
  | unregister r closeNamespace =>
    dsimp only [ShareServer.step] at hstep
    split at hstep
    · obtain rfl := Option.some.inj hstep
      have hsame := unregister_same s r closeNamespace
      exact ⟨hsame.indexed h, hsame.sane hs⟩
    · obtain rfl := Option.some.inj hstep
      exact ⟨Indexed.removeRegistration h r, hs.removeRegistration r⟩
  | removeNext task => exact Indexed.removeNext h hs (fun name _ => hvacant name) hstep
  | _ => cases htouches

end Sound

/-! ## Waiting -/

/-- A PUT waits for a future that is not done. -/
def Waits (s : ShareServer) (r f : Nat) : Prop :=
  s.isPending f = true ∧ ∃ put ∈ s.puts, put.state = .waiting r f

/-- A registration that is held or re-attaching. -/
def Holding (s : ShareServer) (n : Nat) : Prop :=
  (s.registrations n).closed = false ∧
    ((s.registrations n).held = true ∨ (s.registrations n).reattaching = true)

/-- A registration is held or re-attaching, or another one re-attaches to it. -/
def Supported (s : ShareServer) (r : Nat) : Prop :=
  ∃ n, s.Holding n ∧ (n = r ∨ (s.registrations n).reattachedFrom = some r)

/-- It is so by another one than these. -/
def SupportedWithout (s : ShareServer) (l : List Nat) (r : Nat) : Prop :=
  ∃ n, s.Holding n ∧ n ∉ l ∧ (n = r ∨ (s.registrations n).reattachedFrom = some r)

/-- The namespace of a registration is closing. -/
def InClosing (s : ShareServer) (r : Nat) : Prop :=
  (s.registrations r).closed = false ∧
    (s.namespaces.lookup (s.place r).inNamespace).any ShareNamespace.closing = true

/-- A registration takes no PUTs for now. -/
def Suspended (s : ShareServer) (r : Nat) : Prop := s.Supported r ∨ s.InClosing r

/-- While a future is pending, it is that of a registration that is suspended. -/
def Awaits (s : ShareServer) (r f : Nat) : Prop :=
  s.isPending f = true → (s.registrations r).reattachFuture = some f ∧ s.Suspended r

/-- Nothing changes by which a registration is suspended, and no pending future is replaced. -/
structure Calm (s s' : ShareServer) : Prop where
  pending : ∀ f, s'.isPending f = true → s.isPending f = true
  place : ∀ n, s'.place n = s.place n
  closed : ∀ n, (s'.registrations n).closed = (s.registrations n).closed
  holding : ∀ n, s.Holding n → s'.Holding n
  predecessor : ∀ n, (s'.registrations n).reattachedFrom = (s.registrations n).reattachedFrom
  future : ∀ n f, s'.isPending f = true → (s.registrations n).reattachFuture = some f →
    (s'.registrations n).reattachFuture = some f
  closing : ∀ name, (s.namespaces.lookup name).any ShareNamespace.closing = true →
    (s'.namespaces.lookup name).any ShareNamespace.closing = true

namespace Calm

theorem of_eq (hregs : s'.registrations = s.registrations) (hfutures : s'.futures = s.futures)
    (hspaces : s'.namespaces = s.namespaces) : Calm s s' := by
  refine ⟨fun f hf => ?_, fun n => ?_, fun n => ?_, fun n hn => ?_, fun n => ?_, fun n f _ hf => ?_,
    fun name hn => ?_⟩
  · unfold isPending at hf ⊢
    rwa [hfutures] at hf
  · unfold ShareServer.place
    rw [hregs]
  · rw [hregs]
  · unfold Holding at hn ⊢
    rwa [hregs]
  · rw [hregs]
  · rwa [hregs]
  · rwa [hspaces]

theorem trans (h : Calm s s') (h' : Calm s' s'') : Calm s s'' where
  pending f hf := h.pending f (h'.pending f hf)
  place n := (h'.place n).trans (h.place n)
  closed n := (h'.closed n).trans (h.closed n)
  holding n hn := h'.holding n (h.holding n hn)
  predecessor n := (h'.predecessor n).trans (h.predecessor n)
  future n f hp hf := h'.future n f hp (h.future n f (h'.pending f hp) hf)
  closing name hn := h'.closing name (h.closing name hn)

theorem foldl {f : ShareServer → Nat → ShareServer} (hf : ∀ s r, Calm s (f s r)) :
    ∀ (l : List Nat) (s : ShareServer), Calm s (l.foldl f s)
  | [], _ => of_eq rfl rfl rfl
  | r :: l, s => (hf s r).trans (foldl hf l (f s r))

/-- A registration may change in what does not belong to a wait. -/
theorem update {r : Nat} {reg : ShareRegistration}
    (hregs : s'.registrations = Function.update s.registrations r reg)
    (hfutures : s'.futures = s.futures) (hspaces : s'.namespaces = s.namespaces)
    (hplace : reg.toReservation = s.place r) (hclosed : reg.closed = (s.registrations r).closed)
    (hholding : s.Holding r → reg.held = true ∨ reg.reattaching = true)
    (hpredecessor : reg.reattachedFrom = (s.registrations r).reattachedFrom)
    (hfuture : ∀ f, s.isPending f = true → (s.registrations r).reattachFuture = some f →
      reg.reattachFuture = some f) : Calm s s' := by
  have hpending : ∀ f, s'.isPending f = s.isPending f := by
    intro f
    unfold isPending
    rw [hfutures]
  refine ⟨fun f hf => (hpending f) ▸ hf, fun n => ?_, fun n => ?_, fun n hn => ?_, fun n => ?_,
    fun n f hp hf => ?_, fun name hn => ?_⟩
  · unfold ShareServer.place
    rw [hregs, Function.update_apply]
    split
    · rename_i hn
      rw [hn]
      exact hplace
    · rfl
  · rw [hregs, Function.update_apply]
    split
    · rename_i hn
      rw [hn]
      exact hclosed
    · rfl
  · unfold Holding
    rw [hregs, Function.update_apply]
    split
    · rename_i hnr
      subst hnr
      exact ⟨hclosed.trans hn.1, hholding hn⟩
    · exact hn
  · rw [hregs, Function.update_apply]
    split
    · rename_i hn
      rw [hn]
      exact hpredecessor
    · rfl
  · rw [hregs, Function.update_apply]
    split
    · rename_i hn
      subst hn
      exact hfuture f ((hpending f) ▸ hp) hf
    · exact hf
  · rwa [hspaces]

theorem adjust {name : String} {f : ShareNamespace → ShareNamespace}
    (hf : ∀ ns, ns.closing = true → (f ns).closing = true) : Calm s (s.modifyNamespace name f) := by
  refine ⟨fun _ h => h, fun _ => rfl, fun _ => rfl, fun _ h => h, fun _ => rfl, fun _ _ _ h => h,
    fun n hn => ?_⟩
  show ((Index.adjust s.namespaces name f).lookup n).any ShareNamespace.closing = true
  rw [Index.lookup_adjust]
  split
  · cases hlookup : s.namespaces.lookup n with
    | none =>
      rw [hlookup] at hn
      cases hn
    | some ns =>
      rw [hlookup] at hn
      exact hf ns hn
  · exact hn

theorem createFuture {r : Nat}
    (hr : ∀ f, s.isPending f = true → (s.registrations r).reattachFuture ≠ some f) :
    Calm s (s.createFuture r) := by
  refine update rfl rfl rfl rfl rfl (fun hn => hn.2) rfl fun f hp hf => ?_
  exact absurd hf (hr f hp)

theorem renewFuture (s : ShareServer) (r : Nat) : Calm s (s.renewFuture r) := by
  unfold ShareServer.renewFuture
  split
  · exact of_eq rfl rfl rfl
  · rename_i hdone
    refine createFuture fun f hp hf => hdone ?_
    rw [hf]
    exact hp

theorem activate (s : ShareServer) (r : Nat) : Calm s (s.activate r) := by
  unfold ShareServer.activate
  split
  · exact of_eq rfl rfl rfl
  · exact update rfl rfl rfl rfl rfl (fun hn => hn.2) rfl fun _ _ hf => hf

theorem install (s : ShareServer) (r : Nat) (checksum : Option Checksum) :
    Calm s (s.install r checksum) := by
  have hend : ∀ t : ShareServer, Calm t
      { t.modify r fun reg =>
          { reg with ws := reg.ws + 1, fingerprint := some (t.fingerprints + 1) } with
        fingerprints := t.fingerprints + 1 } := fun t =>
    update rfl rfl rfl rfl rfl (fun hn => hn.2) rfl fun _ _ hf => hf
  unfold ShareServer.install
  dsimp only
  split
  · exact hend s
  · refine trans ?_ (hend _)
    exact update rfl rfl rfl rfl rfl (fun hn => hn.2) rfl fun _ _ hf => hf

theorem deliver (s : ShareServer) (r seq : Nat) (checksum : Option Checksum) (expected : Option Nat) :
    Calm s (s.deliver r seq checksum expected).2 := by
  unfold ShareServer.deliver
  dsimp only
  split
  · exact of_eq rfl rfl rfl
  · split
    · exact of_eq rfl rfl rfl
    · exact install s r checksum

theorem installPut (s : ShareServer) (r : Nat) (marker : Option Nat) (value : Option Checksum) :
    Calm s (s.installPut r marker value).1 := by
  unfold ShareServer.installPut
  split
  · exact of_eq rfl rfl rfl
  · dsimp only
    split
    · exact of_eq rfl rfl rfl
    · split
      · exact of_eq rfl rfl rfl
      · exact install s r _

theorem enterPut (s : ShareServer) (r : Nat) : Calm s (s.enterPut r).1 := by
  unfold ShareServer.enterPut
  dsimp only
  split
  · split
    · exact of_eq rfl rfl rfl
    · rename_i hnone
      refine createFuture fun f _ hf => ?_
      rw [hnone] at hf
      cases hf
  · split
    · exact of_eq rfl rfl rfl
    · exact of_eq rfl rfl rfl

theorem holdUntil (deadline : Nat) (s : ShareServer) (r : Nat) : Calm s (holdUntil deadline s r) := by
  refine trans ?_ (renewFuture ..)
  exact update rfl rfl rfl rfl rfl (fun _ => Or.inl rfl) rfl fun _ _ hf => hf

theorem holdRegistration (s : ShareServer) (r : Nat) : Calm s (s.holdRegistration r) := by
  unfold ShareServer.holdRegistration
  split
  · exact of_eq rfl rfl rfl
  · refine trans ?_ (renewFuture ..)
    exact update rfl rfl rfl rfl rfl (fun _ => Or.inl rfl) rfl fun _ _ hf => hf

theorem beginCloseNamespace (s : ShareServer) (name : String) (owner : Owner) :
    Calm s (s.beginCloseNamespace name owner) := by
  unfold ShareServer.beginCloseNamespace
  split
  · exact of_eq rfl rfl rfl
  · split
    · exact of_eq rfl rfl rfl
    · refine trans ?_ (foldl renewFuture ..)
      exact adjust fun _ _ => rfl

theorem complete (s : ShareServer) (future result : Option Nat) : Calm s (s.complete future result) := by
  unfold ShareServer.complete
  split
  · exact of_eq rfl rfl rfl
  · rename_i g
    split
    · refine ⟨fun f hf => ?_, fun _ => rfl, fun _ => rfl, fun _ h => h, fun _ => rfl, fun _ _ _ h => h,
        fun _ h => h⟩
      unfold isPending at hf ⊢
      dsimp only at hf
      rw [Function.update_apply] at hf
      split at hf
      · cases hf
      · exact hf
    · exact of_eq rfl rfl rfl

end Calm

theorem Supported.calm {r : Nat} (h : s.Supported r) (hc : Calm s s') : s'.Supported r := by
  obtain ⟨n, hn, hr⟩ := h
  refine ⟨n, hc.holding n hn, ?_⟩
  rw [hc.predecessor]
  exact hr

theorem removeRegistration_futures (s : ShareServer) (n : Nat) :
    (s.removeRegistration n).futures = s.futures := by
  unfold removeRegistration
  dsimp only
  split
  · rfl
  · split <;> rfl

theorem InClosing.modify {r n : Nat} {g : ShareRegistration → ShareRegistration} (h : s.InClosing r)
    (hg : (g (s.registrations n)).toReservation = s.place n ∧
      (g (s.registrations n)).closed = (s.registrations n).closed) : (s.modify n g).InClosing r := by
  have hplace : (s.modify n g).place r = s.place r := by
    unfold ShareServer.place
    rw [modify_registrations]
    split
    · rename_i hr
      rw [hr]
      exact hg.1
    · rfl
  refine ⟨?_, ?_⟩
  · rw [modify_registrations]
    split
    · rename_i hr
      rw [hg.2, ← hr]
      exact h.1
    · exact h.1
  · rw [hplace]
    exact h.2

namespace Awaits

variable {r f : Nat}

theorem calm (h : s.Awaits r f) (hc : Calm s s') : s'.Awaits r f := by
  intro hp
  obtain ⟨hf, hsuspended⟩ := h (hc.pending f hp)
  refine ⟨hc.future r f hp hf, ?_⟩
  rcases hsuspended with hsupported | ⟨hclosed, hclosing⟩
  · exact Or.inl (hsupported.calm hc)
  · refine Or.inr ⟨(hc.closed r).trans hclosed, ?_⟩
    rw [hc.place]
    exact hc.closing _ hclosing

/-- A future that is completed is not waited for. -/
theorem complete (s : ShareServer) {future : Option Nat} (result : Option Nat)
    (hf : future = some f) : (s.complete future result).Awaits r f := by
  intro hp
  rw [hf] at hp
  unfold ShareServer.complete at hp
  dsimp only at hp
  split at hp
  · unfold isPending at hp
    dsimp only at hp
    rw [Function.update_self] at hp
    cases hp
  · rename_i hdone
    exact absurd hp hdone

theorem done (h : s.isPending f = false) : s.Awaits r f := by
  intro hp
  rw [h] at hp
  cases hp

/-- A registration that re-attaches is active again, and the one that it has replaced is waited for no
longer. -/
theorem completeReattach (h : s.Awaits r f) {n : Nat}
    (hn : s.isPending f = true → n = r → (s.registrations n).reattachedFrom ≠ none → s.Holding n →
      s.InClosing n) : (s.completeReattach n).Awaits r f := by
  unfold ShareServer.completeReattach
  dsimp only
  split
  · exact h
  · rename_i predecessor hpredecessor
    split
    · exact h
    · have hcalm := Calm.complete (s.modify n fun reg =>
        { reg with
          held := false, reattaching := false, holdUntil := none, reattachedFrom := none })
        (s.registrations predecessor).reattachFuture (some n)
      cases hpending : s.isPending f with
      | false =>
        refine done (Bool.eq_false_iff.mpr fun hp => ?_)
        have hp : s.isPending f = true := hcalm.pending f hp
        rw [hpending] at hp
        cases hp
      | true =>
        obtain ⟨hf, hsuspended⟩ := h hpending
        by_cases hr : predecessor = r
        · subst hr
          exact complete _ _ hf
        · refine calm (fun _ => ?_) hcalm
          have hregs := modify_registrations s n
          refine ⟨?_, ?_⟩
          · rw [hregs]
            split
            · rename_i hrn
              rw [← hrn]
              exact hf
            · exact hf
          · have hclosing : s.InClosing r → InClosing (s.modify n fun reg =>
                { reg with
                  held := false, reattaching := false, holdUntil := none, reattachedFrom := none }) r :=
              fun hc => hc.modify ⟨rfl, rfl⟩
            rcases hsuspended with ⟨m, hm, hmr⟩ | hc
            · by_cases hmn : m = n
              · subst hmn
                rcases hmr with hmr | hmr
                · have hsome : (s.registrations m).reattachedFrom ≠ none := by
                    rw [hpredecessor]
                    exact Option.some_ne_none _
                  exact Or.inr (hclosing (hmr ▸ hn hpending hmr hsome hm))
                · rw [hpredecessor] at hmr
                  exact absurd (Option.some.inj hmr) hr
              · refine Or.inl ⟨m, ?_, ?_⟩
                · unfold Holding
                  rw [hregs, if_neg hmn]
                  exact hm
                · rw [hregs, if_neg hmn]
                  exact hmr
            · exact Or.inr (hclosing hc)

/-- A namespace is dropped in which the wait does not depend on its closing. -/
theorem eraseNamespace (h : s.Awaits r f) {name : String}
    (hr : s.isPending f = true → (s.place r).inNamespace = name → s.Supported r) :
    Awaits { s with namespaces := s.namespaces.erase name } r f := by
  intro hp
  have hp : s.isPending f = true := hp
  obtain ⟨hf, hsuspended⟩ := h hp
  refine ⟨hf, ?_⟩
  by_cases hname : (s.place r).inNamespace = name
  · exact Or.inl (hr hp hname)
  · refine hsuspended.imp id fun hc => ⟨hc.1, ?_⟩
    show ((s.namespaces.erase name).lookup (s.place r).inNamespace).any _ = true
    rw [AList.lookup_erase_ne hname]
    exact hc.2

/-- A registration is removed without which the wait goes on. -/
theorem removeRegistration_of (h : s.Awaits r f) {n : Nat}
    (hn : s.isPending f = true → (s.registrations n).closed = false →
      s.SupportedWithout [n] r ∨ n ≠ r ∧ s.InClosing r ∧
        ((s.registrations n).staged = true → (s.place r).inNamespace ≠ (s.place n).inNamespace)) :
    (s.removeRegistration n).Awaits r f := by
  unfold ShareServer.removeRegistration
  dsimp only
  split
  · exact h
  · rename_i hopen
    have hopen : (s.registrations n).closed = false := Bool.eq_false_iff.mpr hopen
    have hregs : ∀ i, (s.removeRecords n).registrations i = if i = n then
        { s.registrations n with closed := true, active := false } else s.registrations i :=
      fun i => modify_registrations s n i fun reg => { reg with closed := true, active := false }
    have hfuture : s.isPending f = true →
        ((s.removeRecords n).registrations r).reattachFuture = some f := by
      intro hp
      have hf := (h hp).1
      rw [hregs]
      split
      · rename_i hr
        rw [← hr]
        exact hf
      · exact hf
    have hsupported : s.SupportedWithout [n] r → (s.removeRecords n).Supported r := by
      rintro ⟨m, hm, hmn, hmr⟩
      have hne : m ≠ n := fun hmn' => hmn (List.mem_singleton.mpr hmn')
      refine ⟨m, ?_, ?_⟩
      · unfold Holding
        rw [hregs, if_neg hne]
        exact hm
      · rw [hregs, if_neg hne]
        exact hmr
    have hclosing : n ≠ r → s.InClosing r → (s.removeRecords n).InClosing r := by
      intro hne hc
      refine ⟨?_, ?_⟩
      · rw [hregs, if_neg (Ne.symm hne)]
        exact hc.1
      · rw [removeRecords_place]
        show ((Index.adjust s.namespaces _ _).lookup _).any _ = true
        rw [Index.lookup_adjust]
        split
        · rw [Option.any_map]
          exact hc.2
        · exact hc.2
    have hremoved : (s.removeRecords n).Awaits r f := fun hp =>
      ⟨hfuture hp, (hn hp hopen).imp hsupported fun hc => hclosing hc.1 hc.2.1⟩
    split
    · rename_i hover
      rw [Bool.and_eq_true] at hover
      refine hremoved.eraseNamespace fun hp hname => ?_
      rw [removeRecords_place] at hname
      rcases hn hp hopen with hs | ⟨-, -, hne⟩
      · exact hsupported hs
      · exact absurd hname (hne hover.1)
    · exact hremoved

/-- A registration is removed on which the wait does not depend. -/
theorem removeRegistration (h : s.Awaits r f) {n : Nat}
    (hn : s.isPending f = true → (s.registrations n).closed = false →
      n ≠ r ∧ (s.registrations n).reattachedFrom ≠ some r ∧
      ((s.registrations n).staged = true → (s.place r).inNamespace = (s.place n).inNamespace →
        s.Supported r)) : (s.removeRegistration n).Awaits r f := by
  refine h.removeRegistration_of fun hp hopen => ?_
  obtain ⟨hne, hpred, hstaged⟩ := hn hp hopen
  have hsupported : s.Supported r → s.SupportedWithout [n] r := by
    rintro ⟨m, hm, hmr⟩
    refine ⟨m, hm, fun hmn => ?_, hmr⟩
    rw [List.mem_singleton.mp hmn] at hmr
    exact hmr.elim hne hpred
  rcases (h hp).2 with hs | hc
  · exact Or.inl (hsupported hs)
  · by_cases hs : (s.registrations n).staged = true ∧
        (s.place r).inNamespace = (s.place n).inNamespace
    · exact Or.inl (hsupported (hstaged hs.1 hs.2))
    · exact Or.inr ⟨hne, hc, fun hst hname => hs ⟨hst, hname⟩⟩

/-- The waiters of a registration that expires are told so. -/
theorem expire_self (h : s.Awaits r f) : (s.expire r).isPending f = false := by
  have hsame : (s.expire r).isPending f =
      (s.complete (s.registrations r).reattachFuture none).isPending f := by
    unfold isPending ShareServer.expire
    rw [removeRegistration_futures]
  refine Bool.eq_false_iff.mpr fun hp => ?_
  rw [hsame] at hp
  have hs := (Calm.complete ..).pending f hp
  rw [(h hs).1] at hp
  unfold ShareServer.complete at hp
  dsimp only at hp
  rw [if_pos hs] at hp
  unfold isPending at hp
  dsimp only at hp
  rw [Function.update_self] at hp
  cases hp

/-- A registration whose waiters are told so is dropped. -/
theorem expire (h : s.Awaits r f) {n : Nat}
    (hn : s.isPending f = true → (s.registrations n).closed = false → n ≠ r →
      (s.registrations n).reattachedFrom ≠ some r ∧
      ((s.registrations n).staged = true → (s.place r).inNamespace = (s.place n).inNamespace →
        s.Supported r)) : (s.expire n).Awaits r f := by
  by_cases hnr : n = r
  · subst hnr
    exact done h.expire_self
  · have hcalm := Calm.complete s (s.registrations n).reattachFuture none
    have hsame := complete_same s (s.registrations n).reattachFuture none
    refine (h.calm hcalm).removeRegistration fun hp hopen => ?_
    rw [hcalm.closed] at hopen
    obtain ⟨hpred, hstaged⟩ := hn (hcalm.pending f hp) hopen hnr
    refine ⟨hnr, ?_, fun hs hname => ?_⟩
    · rw [hcalm.predecessor]
      exact hpred
    · rw [(hsame.places n).2.1] at hs
      rw [hcalm.place, hcalm.place] at hname
      exact (hstaged hs hname).calm hcalm

end Awaits

end ShareServer

end SeamlessWorkflow
