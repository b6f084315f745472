import SeamlessWorkflow.Share.StateGraphs

/-!
# Versions of state graphs

A provider returns what its Context has published last, so what it returns later is no older. The
installations of a namespace raise its marker with every new digest; they follow the Context only if
they come in the order in which its provider has returned.
-/

namespace SeamlessWorkflow

theorem GraphSource.publish_marker {c : GraphSource} {previous : StatePublication}
    (h : c.published = some previous) (sha256 : String → Checksum) (body : String) :
    previous.marker ≤ (c.publish sha256 body).marker := by
  unfold publish
  rw [h]
  dsimp only
  split
  · omega
  · omega

/-- The marker is raised exactly when the digest is a new one. -/
theorem normalizePublication_marker (previous publication : StatePublication) :
    (normalizePublication (some previous) publication).digest = publication.digest ∧
      ((previous.digest = publication.digest ∧
          (normalizePublication (some previous) publication).marker = previous.marker) ∨
        (previous.digest ≠ publication.digest ∧
          (normalizePublication (some previous) publication).marker = previous.marker + 1)) := by
  unfold normalizePublication
  dsimp only
  split
  · rename_i hsame
    exact ⟨rfl, Or.inl ⟨hsame, rfl⟩⟩
  · rename_i hne
    exact ⟨rfl, Or.inr ⟨hne, rfl⟩⟩

/-- A call of a provider has returned a publication. -/
def GraphFetch.Gives (f : GraphFetch) (c n : Nat) (p : StatePublication) : Prop :=
  f.context = c ∧ f.turn = n ∧ f.call = .returned (some p)

namespace GraphServer

variable {s s' : GraphServer} {c n : Nat} {p : StatePublication}

/-! ## What the providers return -/

/-- The provider of a Context has returned a publication, as the nth of all. -/
def Given (s : GraphServer) (c n : Nat) (p : StatePublication) : Prop :=
  ∃ f ∈ s.fetches, f.Gives c n p

theorem mem_modifyFetch {i : Nat} {g : GraphFetch → GraphFetch} {f : GraphFetch} :
    f ∈ (s.modifyFetch i g).fetches ↔
      ∃ j f', s.fetches[j]? = some f' ∧ f = if i = j then g f' else f' := by
  unfold modifyFetch
  dsimp only
  rw [List.mem_iff_getElem?]
  constructor
  · rintro ⟨j, hj⟩
    rw [List.getElem?_modify] at hj
    obtain ⟨f', hf', heq⟩ := Option.map_eq_some_iff.mp hj
    exact ⟨j, f', hf', heq.symm⟩
  · rintro ⟨j, f', hf', heq⟩
    refine ⟨j, ?_⟩
    rw [List.getElem?_modify, hf', heq]
    rfl

/-- A change of a fetch that does not concern what its provider has returned. -/
theorem given_modifyFetch {i : Nat} {g : GraphFetch → GraphFetch}
    (h : ∀ f, s.fetches[i]? = some f → ∀ c n p, (g f).Gives c n p ↔ f.Gives c n p) :
    (s.modifyFetch i g).Given c n p ↔ s.Given c n p := by
  constructor
  · rintro ⟨f, hmem, hgives⟩
    obtain ⟨j, f', hf', heq⟩ := mem_modifyFetch.mp hmem
    refine ⟨f', List.mem_of_getElem? hf', ?_⟩
    by_cases hj : i = j
    · subst hj
      rw [if_pos rfl] at heq
      rw [heq] at hgives
      exact (h f' hf' c n p).mp hgives
    · rw [if_neg hj] at heq
      rw [← heq]
      exact hgives
  · rintro ⟨f, hmem, hgives⟩
    obtain ⟨j, hj⟩ := List.mem_iff_getElem?.mp hmem
    refine ⟨_, mem_modifyFetch.mpr ⟨j, f, hj, rfl⟩, ?_⟩
    by_cases hij : i = j
    · subst hij
      rw [if_pos rfl]
      exact (h f hj c n p).mpr hgives
    · rw [if_neg hij]
      exact hgives

/-- A provider that has not returned yet returns. -/
theorem given_giveBack {i : Nat} {f : GraphFetch} (hf : s.fetches[i]? = some f)
    (hcall : ∀ q, f.call ≠ .returned q) {publication : Option StatePublication} :
    (s.giveBack i publication).Given c n p ↔
      s.Given c n p ∨ (f.context = c ∧ s.returns = n ∧ publication = some p) := by
  unfold giveBack
  constructor
  · rintro ⟨f', hmem, hgives⟩
    obtain ⟨j, f'', hf'', heq⟩ := mem_modifyFetch.mp hmem
    by_cases hj : i = j
    · subst hj
      rw [hf] at hf''
      cases hf''
      rw [if_pos rfl] at heq
      rw [heq] at hgives
      obtain ⟨hcontext, hturn, hreturned⟩ := hgives
      exact Or.inr ⟨hcontext, hturn, ProviderCall.returned.inj hreturned⟩
    · rw [if_neg hj] at heq
      rw [heq] at hgives
      exact Or.inl ⟨f'', List.mem_of_getElem? hf'', hgives⟩
  · rintro (⟨f', hmem, hgives⟩ | ⟨hcontext, hturn, hpublication⟩)
    · obtain ⟨j, hj⟩ := List.mem_iff_getElem?.mp hmem
      have hij : i ≠ j := by
        rintro rfl
        rw [hf] at hj
        cases hj
        exact hcall _ hgives.2.2
      refine ⟨f', mem_modifyFetch.mpr ⟨j, f', hj, (if_neg hij).symm⟩, hgives⟩
    · refine ⟨_, mem_modifyFetch.mpr ⟨i, f, hf, rfl⟩, ?_⟩
      rw [if_pos rfl, hpublication]
      exact ⟨hcontext, hturn, rfl⟩

/-- What the providers return is no newer than what has been published, and comes in order. -/
structure Sound (s : GraphServer) : Prop where
  done : ∀ c p, (s.sources c).inflight = some (.done p) → (s.sources c).published = some p
  given : ∀ c n p, s.Given c n p →
    n < s.returns ∧ ∃ q, (s.sources c).published = some q ∧ p.marker ≤ q.marker
  ordered : ∀ c n p m q, s.Given c n p → s.Given c m q → n ≤ m → p.marker ≤ q.marker
  installed : ∀ k ∈ s.installations, s.Given k.context k.turn k.source

/-- Nothing has been returned, and what is published has become no older. -/
theorem Sound.quiet (h : s.Sound)
    (hdone : ∀ c p, (s'.sources c).inflight = some (.done p) → (s'.sources c).published = some p)
    (hgiven : ∀ c n p, s'.Given c n p ↔ s.Given c n p) (hreturns : s'.returns = s.returns)
    (hpublished : ∀ c q, (s.sources c).published = some q →
      ∃ q', (s'.sources c).published = some q' ∧ q.marker ≤ q'.marker)
    (hinstallations : s'.installations = s.installations) : s'.Sound := by
  refine ⟨hdone, fun c n p hp => ?_, fun c n p m q hp hq hle => ?_, fun k hk => ?_⟩
  · obtain ⟨hlt, q, hq, hle⟩ := h.given c n p ((hgiven c n p).mp hp)
    obtain ⟨q', hq', hle'⟩ := hpublished c q hq
    rw [hreturns]
    exact ⟨hlt, q', hq', Nat.le_trans hle hle'⟩
  · exact h.ordered c n p m q ((hgiven c n p).mp hp) ((hgiven c m q).mp hq) hle
  · rw [hinstallations] at hk
    exact (hgiven _ _ _).mpr (h.installed k hk)

/-- A provider returns what its Context has published last. -/
theorem Sound.giveBack (h : s.Sound) {i : Nat} {f : GraphFetch} (hf : s.fetches[i]? = some f)
    (hcall : ∀ q, f.call ≠ .returned q) {publication : Option StatePublication}
    (hpublication : ∀ p, publication = some p → (s.sources f.context).published = some p) :
    (s.giveBack i publication).Sound := by
  refine ⟨h.done, fun c n p hp => ?_, fun c n p m q hp hq hle => ?_, fun k hk => ?_⟩
  · rcases (given_giveBack hf hcall).mp hp with hold | ⟨rfl, rfl, hnew⟩
    · obtain ⟨hlt, q, hq, hle⟩ := h.given c n p hold
      exact ⟨Nat.lt_succ_of_lt hlt, q, hq, hle⟩
    · exact ⟨Nat.lt_succ_self _, p, hpublication p hnew, Nat.le_refl _⟩
  · rcases (given_giveBack hf hcall).mp hp with hold | ⟨rfl, rfl, hnew⟩
    · rcases (given_giveBack hf hcall).mp hq with hold' | ⟨rfl, rfl, hnew'⟩
      · exact h.ordered c n p m q hold hold' hle
      · obtain ⟨-, r, hr, hle'⟩ := h.given _ n p hold
        rw [hpublication q hnew'] at hr
        cases hr
        exact hle'
    · rcases (given_giveBack hf hcall).mp hq with hold' | ⟨-, -, hnew'⟩
      · -- an earlier return does not come later
        have hlt := (h.given _ m q hold').1
        omega
      · rw [hnew] at hnew'
        cases hnew'
        exact Nat.le_refl _
  · exact (given_giveBack hf hcall).mpr (Or.inl (h.installed k hk))

/-- A Context changes, and has published nothing older. -/
theorem Sound.modifySource (h : s.Sound) {g : GraphSource → GraphSource}
    (hdone : ∀ p, (g (s.sources c)).inflight = some (.done p) → (g (s.sources c)).published = some p)
    (hpublished : ∀ q, (s.sources c).published = some q →
      ∃ q', (g (s.sources c)).published = some q' ∧ q.marker ≤ q'.marker) :
    (s.modifySource c g).Sound := by
  refine h.quiet (fun c' p hp => ?_) (fun _ _ _ => Iff.rfl) rfl (fun c' q hq => ?_) rfl
  · unfold GraphServer.modifySource at hp ⊢
    dsimp only at hp ⊢
    by_cases hc : c' = c
    · subst hc
      rw [Function.update_self] at hp ⊢
      exact hdone p hp
    · rw [Function.update_of_ne hc] at hp ⊢
      exact h.done c' p hp
  · unfold GraphServer.modifySource
    dsimp only
    by_cases hc : c' = c
    · subst hc
      rw [Function.update_self]
      exact hpublished q hq
    · rw [Function.update_of_ne hc]
      exact ⟨q, hq, Nat.le_refl _⟩

theorem Sound.modifyFetch (h : s.Sound) {i : Nat} {g : GraphFetch → GraphFetch}
    (hgives : ∀ f, s.fetches[i]? = some f → ∀ c n p, (g f).Gives c n p ↔ f.Gives c n p) :
    (s.modifyFetch i g).Sound :=
  h.quiet h.done (fun _ _ _ => given_modifyFetch hgives) rfl
    (fun _ q hq => ⟨q, hq, Nat.le_refl _⟩) rfl

/-- A call that has not returned goes on without returning. -/
theorem gives_of_call {f g : GraphFetch} (hf : ∀ q, f.call ≠ .returned q)
    (hg : ∀ q, g.call ≠ .returned q) : g.Gives c n p ↔ f.Gives c n p :=
  ⟨fun h => absurd h.2.2 (hg _), fun h => absurd h.2.2 (hf _)⟩

theorem Sound.enter (h : s.Sound) {i : Nat} {f : GraphFetch} {accepting : Bool}
    (hf : s.fetches[i]? = some f) (hcall : f.call = .called)
    (henter : s.enter i f.context accepting = some s') : s'.Sound := by
  have hnot : ∀ q, f.call ≠ .returned q := by
    intro q
    rw [hcall]
    exact fun heq => nomatch heq
  have hnothing : (s.giveBack i none).Sound := h.giveBack hf hnot fun p hp => nomatch hp
  have hwait : ∀ refresh, (∀ p, refresh = .done p → (s.sources f.context).published = some p) →
      ((s.modifySource f.context fun source =>
        { source with inflight := some refresh, holder := some i }).modifyFetch i fun f =>
          { f with call := .waiting }).Sound := by
    intro refresh hrefresh
    refine Sound.modifyFetch (h.modifySource ?_ fun q hq => ⟨q, hq, Nat.le_refl _⟩) ?_
    · intro p hp
      exact hrefresh p (Option.some.inj hp)
    · intro f' hf' c n p
      rw [show (s.modifySource f.context _).fetches = s.fetches from rfl, hf] at hf'
      cases hf'
      exact gives_of_call hnot fun q heq => nomatch heq
  unfold GraphServer.enter at henter
  dsimp only at henter
  split at henter
  · cases henter
    exact hnothing
  · split at henter
    · cases henter
    · split at henter
      · rename_i refresh hinflight
        cases henter
        refine hwait refresh fun p hp => h.done f.context p ?_
        rw [hinflight, hp]
      · split at henter
        · cases henter
          exact h.giveBack hf hnot fun p hp => hp
        · split at henter
          · cases henter
            exact hwait .pending fun p hp => nomatch hp
          · cases henter
            exact hnothing

theorem Sound.resume (h : s.Sound) {i : Nat} {f : GraphFetch} (hf : s.fetches[i]? = some f)
    (hcall : f.call = .waiting) (hresume : s.resume i f.context = some s') : s'.Sound := by
  have hnot : ∀ q, f.call ≠ .returned q := by
    intro q
    rw [hcall]
    exact fun heq => nomatch heq
  have hcleared : (s.modifySource f.context fun source =>
      { source with inflight := none, holder := none }).Sound :=
    h.modifySource (fun p hp => nomatch hp) fun q hq => ⟨q, hq, Nat.le_refl _⟩
  unfold GraphServer.resume at hresume
  dsimp only at hresume
  split at hresume
  · rename_i publication hdone
    cases hresume
    refine hcleared.giveBack hf hnot fun p hp => ?_
    have hpublished := h.done f.context publication hdone
    split at hp
    · cases hp
    · cases hp
      unfold GraphServer.modifySource
      dsimp only
      rw [Function.update_self]
      exact hpublished
  · cases hresume
    exact hcleared.giveBack hf hnot fun p hp => nomatch hp
  · cases hresume
    refine hcleared.modifyFetch fun f' hf' c n p => ?_
    rw [show (s.modifySource f.context _).fetches = s.fetches from rfl, hf] at hf'
    cases hf'
    exact gives_of_call hnot fun q heq => nomatch heq
  · cases hresume

theorem Sound.giveUp (h : s.Sound) {i : Nat} {f : GraphFetch} (hf : s.fetches[i]? = some f)
    (hcall : f.call = .waiting) : (s.giveUp i f.context).Sound := by
  unfold GraphServer.giveUp
  refine Sound.modifyFetch (h.modifySource (fun p hp => ?_) fun q hq => ⟨q, hq, Nat.le_refl _⟩) ?_
  · dsimp only at hp
    split at hp
    · cases hp
    · cases hp
  · intro f' hf' c n p
    rw [show (s.modifySource f.context _).fetches = s.fetches from rfl, hf] at hf'
    cases hf'
    refine gives_of_call (fun q heq => ?_) fun q heq => nomatch heq
    rw [hcall] at heq
    cases heq

theorem Sound.startFetch (h : s.Sound) (name : String) (forTick : Bool) :
    (s.startFetch name forTick).Sound := by
  have hanswers : ∀ answers, Sound { s with answers } := fun answers =>
    ⟨h.done, h.given, h.ordered, h.installed⟩
  unfold GraphServer.startFetch
  split
  · split
    · exact h
    · exact hanswers _
  · dsimp only
    split
    · split
      · exact h
      · exact hanswers _
    · refine h.quiet h.done (fun c n p => ⟨?_, ?_⟩) rfl (fun _ q hq => ⟨q, hq, Nat.le_refl _⟩) rfl
      · rintro ⟨f, hmem, hgives⟩
        rcases List.mem_append.mp hmem with hold | hnew
        · exact ⟨f, hold, hgives⟩
        · rw [List.mem_singleton.mp hnew] at hgives
          cases hgives.2.2
      · rintro ⟨f, hmem, hgives⟩
        exact ⟨f, List.mem_append_left _ hmem, hgives⟩

/-- A request that is answered changes nothing else. -/
theorem answer_sound {f : GraphFetch} {answer : GraphAnswer} :
    (s.answer f answer).Sound ↔ s.Sound := by
  unfold GraphServer.answer
  split
  · exact Iff.rfl
  · exact ⟨fun h => ⟨h.done, h.given, h.ordered, h.installed⟩,
      fun h => ⟨h.done, h.given, h.ordered, h.installed⟩⟩

theorem Sound.normalize (h : s.Sound) {f : GraphFetch} {publication : StatePublication}
    (hgiven : s.Given f.context f.turn publication) : (s.normalize f publication).2.Sound := by
  unfold GraphServer.normalize
  split
  · refine ⟨h.done, h.given, h.ordered, fun k hk => ?_⟩
    rcases List.mem_append.mp hk with hold | hnew
    · exact h.installed k hold
    · rw [List.mem_singleton.mp hnew]
      exact hgiven
  · exact h

theorem Sound.finish (h : s.Sound) {f : GraphFetch}
    (hgiven : ∀ p, f.call = .returned (some p) → s.Given f.context f.turn p)
    (hfinish : s.finish f = some s') : s'.Sound := by
  unfold GraphServer.finish at hfinish
  split at hfinish
  · rename_i publication hcall
    cases hfinish
    exact answer_sound.mpr (h.normalize (hgiven publication hcall))
  · cases hfinish
    exact answer_sound.mpr h
  · cases hfinish
    exact answer_sound.mpr h
  · cases hfinish

theorem Sound.step (h : s.Sound) {sha256 : String → Checksum} {event : Event}
    (hstep : s.step sha256 event = some s') : s'.Sound := by
  have hawaited : ∀ i, (s.modifyFetch i fun f => { f with awaited := false }).Sound := fun i =>
    h.modifyFetch fun _ _ _ _ _ => Iff.rfl
  cases event with
  | server event =>
    obtain ⟨server, -, rfl⟩ := Option.map_eq_some_iff.mp hstep
    exact ⟨h.done, h.given, h.ordered, h.installed⟩
  | get name =>
    cases hstep
    exact h.startFetch name false
  | tick name =>
    cases hstep
    exact h.startFetch name true
  | enter i accepting =>
    unfold GraphServer.step at hstep
    dsimp only at hstep
    split at hstep
    · rename_i hf
      exact h.enter hf rfl hstep
    · cases hstep
  | resume i =>
    unfold GraphServer.step at hstep
    dsimp only at hstep
    split at hstep
    · rename_i hf
      exact h.resume hf rfl hstep
    · cases hstep
  | giveUp i =>
    unfold GraphServer.step at hstep
    dsimp only at hstep
    split at hstep
    · rename_i hf
      cases hstep
      exact h.giveUp hf rfl
    · cases hstep
  | finish i =>
    unfold GraphServer.step at hstep
    dsimp only at hstep
    split at hstep
    · rename_i f hf
      obtain ⟨-, hfinish⟩ := Option.ite_none_right_eq_some.mp hstep
      refine (hawaited i).finish (fun p hp => ?_) hfinish
      refine ⟨_, mem_modifyFetch.mpr ⟨i, f, hf, rfl⟩, ?_⟩
      rw [if_pos rfl]
      exact ⟨rfl, rfl, hp⟩
    · cases hstep
  | abandon i =>
    unfold GraphServer.step at hstep
    dsimp only at hstep
    split at hstep
    · obtain ⟨-, heq⟩ := Option.ite_none_right_eq_some.mp hstep
      cases heq
      exact answer_sound.mpr (hawaited i)
    · cases hstep
  | turn c =>
    cases hstep
    exact h.modifySource (fun p hp => h.done c p hp) fun q hq => ⟨q, hq, Nat.le_refl _⟩
  | refresh c body =>
    obtain ⟨-, heq⟩ := Option.ite_none_right_eq_some.mp hstep
    cases heq
    refine h.modifySource (fun p hp => ?_) fun q hq => ⟨_, rfl, GraphSource.publish_marker hq ..⟩
    exact congrArg some (Refresh.done.inj (Option.some.inj hp))
  | refuse c closed =>
    obtain ⟨-, heq⟩ := Option.ite_none_right_eq_some.mp hstep
    cases heq
    refine h.modifySource (fun p hp => ?_) fun q hq => ⟨q, hq, Nat.le_refl _⟩
    dsimp only at hp
    split at hp
    · cases hp
    · cases hp
  | beginClose c =>
    cases hstep
    exact h.modifySource (fun p hp => h.done c p hp) fun q hq => ⟨q, hq, Nat.le_refl _⟩

/-! ## What is installed -/

/-- The publication that has been installed last in a namespace. -/
def lastInstalled (installations : List GraphInstallation) (entry : Nat) : Option StatePublication :=
  ((installations.filter fun k => k.entry = entry).getLast?).map GraphInstallation.after

/-- The installations follow each other. -/
structure Chronicle (s : GraphServer) : Prop where
  latest : ∀ e, s.publications e = lastInstalled s.installations e
  before : ∀ l k r, s.installations = l ++ k :: r → k.before = lastInstalled l k.entry
  after : ∀ k ∈ s.installations, k.after = normalizePublication k.before k.source
  current : ∀ k ∈ s.installations, ∃ p, s.publications k.entry = some p ∧
    k.after.marker ≤ p.marker ∧ (k.after.marker = p.marker → k.after.digest = p.digest)
  monotone : s.installations.Pairwise fun k m => k.entry = m.entry →
    k.after.marker ≤ m.after.marker ∧
      (k.after.marker = m.after.marker → k.after.digest = m.after.digest)

theorem lastInstalled_append (log : List GraphInstallation) (k : GraphInstallation) (e : Nat) :
    lastInstalled (log ++ [k]) e = if k.entry = e then some k.after else lastInstalled log e := by
  unfold lastInstalled
  rw [List.filter_append]
  split
  · rename_i he
    rw [List.filter_cons_of_pos (by simpa using he)]
    simp
  · rename_i he
    rw [List.filter_cons_of_neg (by simpa using he)]
    simp

theorem Chronicle.normalize (h : s.Chronicle) (f : GraphFetch) (publication : StatePublication) :
    (s.normalize f publication).2.Chronicle := by
  unfold GraphServer.normalize
  split
  · -- a publication that is replaced has a lower marker, or the digest of the new one
    have hgrows : ∀ p, s.publications f.entry = some p →
        p.marker ≤ (normalizePublication (s.publications f.entry) publication).marker ∧
        (p.marker = (normalizePublication (s.publications f.entry) publication).marker →
          p.digest = (normalizePublication (s.publications f.entry) publication).digest) := by
      intro p hp
      rw [hp]
      obtain ⟨hdigest, hsame | hraised⟩ := normalizePublication_marker p publication
      · rw [hdigest]
        exact ⟨Nat.le_of_eq hsame.2.symm, fun _ => hsame.1⟩
      · exact ⟨by omega, fun heq => by omega⟩
    have hold : ∀ k ∈ s.installations, k.entry = f.entry →
        k.after.marker ≤ (normalizePublication (s.publications f.entry) publication).marker ∧
        (k.after.marker = (normalizePublication (s.publications f.entry) publication).marker →
          k.after.digest = (normalizePublication (s.publications f.entry) publication).digest) := by
      intro k hk he
      obtain ⟨p, hp, hle, hsame⟩ := h.current k hk
      rw [he] at hp
      obtain ⟨hle', hsame'⟩ := hgrows p hp
      refine ⟨Nat.le_trans hle hle', fun heq => ?_⟩
      have hmarker : k.after.marker = p.marker := by omega
      exact (hsame hmarker).trans (hsame' (by omega))
    refine ⟨fun e => ?_, fun l k r hsplit => ?_, fun k hk => ?_, fun k hk => ?_, ?_⟩
    · rw [lastInstalled_append]
      dsimp only
      by_cases he : f.entry = e
      · rw [if_pos he, he, Function.update_self]
      · rw [if_neg he, Function.update_of_ne (Ne.symm he)]
        exact h.latest e
    · dsimp only at hsplit
      rcases List.eq_nil_or_concat r with rfl | ⟨r', m, rfl⟩
      · obtain ⟨hl, hk⟩ := List.append_inj' hsplit rfl
        cases hk
        rw [← hl]
        exact h.latest f.entry
      · have hinit : s.installations = l ++ k :: r' := by
          rw [List.concat_eq_append, ← List.cons_append, ← List.append_assoc] at hsplit
          exact (List.append_inj' hsplit rfl).1
        exact h.before l k r' hinit
    · rcases List.mem_append.mp hk with hmem | hnew
      · exact h.after k hmem
      · rw [List.mem_singleton.mp hnew]
    · rcases List.mem_append.mp hk with hmem | hnew
      · dsimp only
        by_cases he : k.entry = f.entry
        · rw [he, Function.update_self]
          exact ⟨_, rfl, hold k hmem he⟩
        · rw [Function.update_of_ne he]
          exact h.current k hmem
      · rw [List.mem_singleton.mp hnew]
        dsimp only
        rw [Function.update_self]
        exact ⟨_, rfl, Nat.le_refl _, fun _ => rfl⟩
    · rw [List.pairwise_append]
      refine ⟨h.monotone, List.pairwise_singleton .., fun k hk m hm he => ?_⟩
      rw [List.mem_singleton.mp hm] at he ⊢
      exact hold k hk he
  · exact h

/-- The same has been installed. -/
def SameChronicle (s s' : GraphServer) : Prop :=
  s'.publications = s.publications ∧ s'.installations = s.installations

theorem Chronicle.of_same (h : s.Chronicle) (hsame : SameChronicle s s') : s'.Chronicle := by
  obtain ⟨hpublications, hinstallations⟩ := hsame
  obtain ⟨hlatest, hbefore, hafter, hcurrent, hmonotone⟩ := h
  constructor
  · rw [hpublications, hinstallations]
    exact hlatest
  · rw [hinstallations]
    exact hbefore
  · rw [hinstallations]
    exact hafter
  · rw [hpublications, hinstallations]
    exact hcurrent
  · rw [hinstallations]
    exact hmonotone

theorem answer_same (s : GraphServer) (f : GraphFetch) (answer : GraphAnswer) :
    SameChronicle s (s.answer f answer) := by
  unfold GraphServer.answer
  split <;> exact ⟨rfl, rfl⟩

theorem startFetch_same (s : GraphServer) (name : String) (forTick : Bool) :
    SameChronicle s (s.startFetch name forTick) := by
  unfold startFetch
  split
  · split <;> exact ⟨rfl, rfl⟩
  · dsimp only
    split
    · split <;> exact ⟨rfl, rfl⟩
    · exact ⟨rfl, rfl⟩

theorem enter_same {i : Nat} {accepting : Bool} (h : s.enter i c accepting = some s') :
    SameChronicle s s' := by
  unfold GraphServer.enter at h
  dsimp only at h
  split at h
  · cases h
    exact ⟨rfl, rfl⟩
  · split at h
    · cases h
    · split at h
      · cases h
        exact ⟨rfl, rfl⟩
      · split at h
        · cases h
          exact ⟨rfl, rfl⟩
        · split at h
          · cases h
            exact ⟨rfl, rfl⟩
          · cases h
            exact ⟨rfl, rfl⟩

theorem resume_same {i : Nat} (h : s.resume i c = some s') : SameChronicle s s' := by
  unfold GraphServer.resume at h
  dsimp only at h
  split at h
  · cases h
    exact ⟨rfl, rfl⟩
  · cases h
    exact ⟨rfl, rfl⟩
  · cases h
    exact ⟨rfl, rfl⟩
  · cases h

theorem normalize_same (hsame : SameChronicle s s') (hserver : s'.server = s.server) (f : GraphFetch)
    (publication : StatePublication) :
    SameChronicle (s.normalize f publication).2 (s'.normalize f publication).2 := by
  obtain ⟨hpublications, hinstallations⟩ := hsame
  unfold GraphServer.normalize
  dsimp only
  rw [hserver, hpublications, hinstallations]
  by_cases hlive : (s.server.namespaces.lookup f.name).any (·.id == f.entry) = true
  · rw [if_pos hlive, if_pos hlive]
    exact ⟨rfl, rfl⟩
  · rw [if_neg hlive, if_neg hlive]
    exact ⟨hpublications, hinstallations⟩

/-- Only the end of a fetch installs something, namely what has been fetched. -/
theorem step_installs {sha256 : String → Checksum} {event : Event}
    (hstep : s.step sha256 event = some s') :
    SameChronicle s s' ∨ ∃ i f publication, event = .finish i ∧ s.fetches[i]? = some f ∧
      f.call = .returned (some publication) ∧ SameChronicle (s.normalize f publication).2 s' := by
  cases event with
  | server event =>
    obtain ⟨server, -, rfl⟩ := Option.map_eq_some_iff.mp hstep
    exact Or.inl ⟨rfl, rfl⟩
  | get name =>
    cases hstep
    exact Or.inl (startFetch_same s name false)
  | tick name =>
    cases hstep
    exact Or.inl (startFetch_same s name true)
  | enter i accepting =>
    unfold GraphServer.step at hstep
    dsimp only at hstep
    split at hstep
    · exact Or.inl (enter_same hstep)
    · cases hstep
  | resume i =>
    unfold GraphServer.step at hstep
    dsimp only at hstep
    split at hstep
    · exact Or.inl (resume_same hstep)
    · cases hstep
  | giveUp i =>
    unfold GraphServer.step at hstep
    dsimp only at hstep
    split at hstep
    · cases hstep
      exact Or.inl ⟨rfl, rfl⟩
    · cases hstep
  | finish i =>
    unfold GraphServer.step at hstep
    dsimp only at hstep
    split at hstep
    · rename_i f hf
      obtain ⟨-, hfinish⟩ := Option.ite_none_right_eq_some.mp hstep
      unfold GraphServer.finish at hfinish
      split at hfinish
      · rename_i publication hcall
        cases hfinish
        refine Or.inr ⟨i, f, publication, rfl, hf, hcall, ?_⟩
        obtain ⟨hpublications, hinstallations⟩ := answer_same
          ((s.modifyFetch i fun f => { f with awaited := false }).normalize f publication).2 f
          (.graph ((s.modifyFetch i fun f => { f with awaited := false }).normalize f publication).1)
        have hmodified : SameChronicle s (s.modifyFetch i fun f => { f with awaited := false }) :=
          ⟨rfl, rfl⟩
        have hnormalize := normalize_same hmodified rfl f publication
        exact ⟨hpublications.trans hnormalize.1, hinstallations.trans hnormalize.2⟩
      · cases hfinish
        exact Or.inl (answer_same (s.modifyFetch i fun f => { f with awaited := false }) f _)
      · cases hfinish
        exact Or.inl (answer_same (s.modifyFetch i fun f => { f with awaited := false }) f _)
      · cases hfinish
    · cases hstep
  | abandon i =>
    unfold GraphServer.step at hstep
    dsimp only at hstep
    split at hstep
    · rename_i f hf
      obtain ⟨-, heq⟩ := Option.ite_none_right_eq_some.mp hstep
      cases heq
      exact Or.inl (answer_same (s.modifyFetch i fun f => { f with awaited := false }) f _)
    · cases hstep
  | turn c =>
    cases hstep
    exact Or.inl ⟨rfl, rfl⟩
  | refresh c body =>
    obtain ⟨-, heq⟩ := Option.ite_none_right_eq_some.mp hstep
    cases heq
    exact Or.inl ⟨rfl, rfl⟩
  | refuse c closed =>
    obtain ⟨-, heq⟩ := Option.ite_none_right_eq_some.mp hstep
    cases heq
    exact Or.inl ⟨rfl, rfl⟩
  | beginClose c =>
    cases hstep
    exact Or.inl ⟨rfl, rfl⟩

/-! ## Runs -/

/-- A publication that is installed has been returned after those that the same Context has given to
the namespace before, or it is the same. -/
def InOrder (s : GraphServer) : Event → Prop
  | .finish i => ∀ f ∈ s.fetches[i]?, (s.server.namespaces.lookup f.name).any (·.id == f.entry) →
      ∀ k ∈ s.installations, k.entry = f.entry → k.context = f.context →
        k.turn ≤ f.turn ∨ f.call = .returned (some k.source)
  | _ => True

/-- The publications of a Context are installed in the order of their age. -/
def Recent (s : GraphServer) : Prop :=
  s.installations.Pairwise fun k m => k.entry = m.entry → k.context = m.context →
    k.source.marker ≤ m.source.marker

theorem Recent.step (h : s.Recent) (hsound : s.Sound) {sha256 : String → Checksum} {event : Event}
    (horder : s.InOrder event) (hstep : s.step sha256 event = some s') : s'.Recent := by
  rcases step_installs hstep with ⟨-, hsame⟩ | ⟨i, f, publication, rfl, hf, hcall, -, hsame⟩
  · unfold Recent
    rw [hsame]
    exact h
  · unfold Recent
    rw [hsame]
    unfold GraphServer.normalize
    split
    · rename_i hlive
      rw [List.pairwise_append]
      refine ⟨h, List.pairwise_singleton .., fun k hk m hm he hc => ?_⟩
      rw [List.mem_singleton.mp hm] at he hc ⊢
      have hgiven : s.Given f.context f.turn publication :=
        ⟨f, List.mem_of_getElem? hf, rfl, rfl, hcall⟩
      rcases horder f hf hlive k hk he hc with hturn | hequal
      · have hk' := hsound.installed k hk
        rw [hc] at hk'
        exact hsound.ordered _ _ _ _ _ hk' hgiven hturn
      · rw [hcall] at hequal
        cases hequal
        exact Nat.le_refl _
    · exact h

/-- The versions that a namespace shows are faithful to the publications of its Contexts. -/
structure Faithful (s : GraphServer) : Prop where
  latest : ∀ e, s.publications e = lastInstalled s.installations e
  before : ∀ l k r, s.installations = l ++ k :: r → k.before = lastInstalled l k.entry
  raised : ∀ k ∈ s.installations, ∀ p, k.before = some p →
    (p.marker < k.after.marker ↔ p.digest ≠ k.after.digest)
  monotone : s.installations.Pairwise fun k m => k.entry = m.entry →
    k.after.marker ≤ m.after.marker ∧
      (k.after.marker = m.after.marker → k.after.digest = m.after.digest)
  recent : s.Recent

/-- In every run in which publications are installed in the order in which they were returned. -/
theorem reachable_faithful {sha256 : String → Checksum}
    (h : Transition.Reachable (step sha256) {} InOrder s) : s.Faithful := by
  have hstart : Sound {} ∧ Chronicle {} ∧ Recent {} := by
    refine ⟨⟨?_, ?_, ?_, ?_⟩, ⟨fun _ => rfl, ?_, ?_, ?_, List.Pairwise.nil⟩, List.Pairwise.nil⟩
    · exact fun _ _ hp => nomatch hp
    · exact fun _ _ _ hp => absurd hp.choose_spec.1 List.not_mem_nil
    · exact fun _ _ _ _ _ hp => absurd hp.choose_spec.1 List.not_mem_nil
    · exact fun _ hk => absurd hk List.not_mem_nil
    · intro l k r hsplit
      exact absurd hsplit.symm (List.append_ne_nil_of_right_ne_nil l (List.cons_ne_nil k r))
    · exact fun _ hk => absurd hk List.not_mem_nil
    · exact fun _ hk => absurd hk List.not_mem_nil
  have hall : s.Sound ∧ s.Chronicle ∧ s.Recent := by
    refine h.invariant (I := fun s => s.Sound ∧ s.Chronicle ∧ s.Recent) hstart ?_
    rintro s next event ⟨hsound, hchronicle, hrecent⟩ horder hstep
    refine ⟨hsound.step hstep, ?_, hrecent.step hsound horder hstep⟩
    rcases step_installs hstep with hsame | ⟨i, f, publication, -, -, -, hsame⟩
    · exact hchronicle.of_same hsame
    · exact (hchronicle.normalize f publication).of_same hsame
  obtain ⟨-, hchronicle, hrecent⟩ := hall
  refine ⟨hchronicle.latest, hchronicle.before, fun k hk p hp => ?_, hchronicle.monotone, hrecent⟩
  have hafter := hchronicle.after k hk
  rw [hp] at hafter
  obtain ⟨hdigest, ⟨hsame, hmarker⟩ | ⟨hne, hmarker⟩⟩ := normalizePublication_marker p k.source
  · rw [hafter, hdigest, hmarker]
    exact ⟨fun hlt => absurd hlt (Nat.lt_irrefl _), fun hne => absurd hsame hne⟩
  · rw [hafter, hdigest, hmarker]
    exact ⟨fun _ => hne, fun _ => Nat.lt_succ_self _⟩

instance (s : GraphServer) (event : Event) : Decidable (s.InOrder event) := by
  unfold InOrder
  split
  · infer_instance
  · infer_instance

/-- A Context shares a cell, and its state graph is fetched. -/
def graphFetched : List Event :=
  [.server (.reserve "ctx" { path := ["a"], readonly := false } (some (.context 0)) [] false),
    .server .start, .get "ctx", .enter 0 true, .refresh 0 "{}", .resume 0]

/-- The Context publishes a new state graph, which is fetched too. -/
def graphFetchedAgain : List Event :=
  graphFetched ++ [.server (.tick stateGraphInterval), .turn 0, .tick "ctx", .enter 1 true,
    .refresh 0 "[{}]", .resume 1]

def fetchesInOrder : List Event := graphFetchedAgain ++ [.finish 0, .finish 1]

theorem fetchesInOrder_runs :
    (Transition.run (step fun body => ⟨body.length⟩) fetchesInOrder {}).isSome = true := by decide

theorem reachable_faithful_fetchesInOrder :
    ((Transition.run (step fun body => ⟨body.length⟩) fetchesInOrder {}).get
      fetchesInOrder_runs).Faithful :=
  reachable_faithful (.of_run .start (by decide) fetchesInOrder_runs)

/-- The thread that has fetched the first state graph is overtaken. -/
def fetchOvertaken : List Event := graphFetchedAgain ++ [.finish 1, .finish 0]

theorem fetchOvertaken_runs :
    (Transition.run (step fun body => ⟨body.length⟩) fetchOvertaken {}).isSome = true := by decide

theorem not_reachable_faithful :
    ¬ ∀ (sha256 : String → Checksum) s,
      Transition.Reachable (step sha256) {} (fun _ _ => True) s → s.Faithful := by
  intro h
  have hfaithful := h _ _ (.of_run .start (by decide) fetchOvertaken_runs)
  have hold : ¬ ((Transition.run (step fun body => ⟨body.length⟩) fetchOvertaken {}).get
      fetchOvertaken_runs).Recent := by
    unfold Recent
    decide
  exact hold hfaithful.recent

end GraphServer

end SeamlessWorkflow
