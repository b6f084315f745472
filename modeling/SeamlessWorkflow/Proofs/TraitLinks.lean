import Mathlib.Algebra.BigOperators.Group.Finset.Basic
import Mathlib.Algebra.GroupWithZero.Nat
import Mathlib.Tactic.Common
import SeamlessWorkflow.Attachments.Traitlet

/-!
# A trait link converges

Every assignment that changes a side leaves a notification behind, and every notification ends in a
comparison of the two sides or in a dispatch that makes them equal. So the sides are equal whenever
nothing is left to do; and a dispatch without further edits does only so much.
-/

namespace SeamlessWorkflow

namespace Traitlet

variable {T V : Type} {s s' : State T V}

/-! ## What is owed -/

/-- The link will compare the sides, or make them equal, on behalf of a notification. -/
def Notice.Owes (s : State T V) : Notice V → Prop
  | .pending side value => value.isSome = true ∧ (s.value side).isSome = true
  | .delivered => False

def Nested.Owes (s : State T V) : Nested V → Prop
  | .notice call => call.Owes s
  | .compareHub side _ => (s.value side).isSome = true
  | .compareTarget side _ hub => (s.value side).isSome = true ∧ s.hub = hub
  | .append side _ => (s.value side).isSome = true

def Phase.Owes (s : State T V) : Phase V → Prop
  | .process side => (s.value side).isSome = true
  | .setTarget value => s.hub = some value
  | .readCoerced value => s.hub = some value ∧ s.target.isSome = true
  | .setHub value => s.target = some value
  | .drain => False

/-- Something that is still to be done will compare the sides or make them equal. -/
inductive State.Owed (s : State T V) : Prop
  | notice {thread : T} {notice : Notice V} : notice ∈ s.notices thread → notice.Owes s → s.Owed
  | queued {d : Dispatch T V} {item : Side × V} :
      s.dispatch = some d → item ∈ d.queue → (s.value item.1).isSome = true → s.Owed
  | nested {d : Dispatch T V} {frame : Nested V} :
      s.dispatch = some d → frame ∈ d.nested → frame.Owes s → s.Owed
  | phase {d : Dispatch T V} : s.dispatch = some d → d.phase.Owes s → s.Owed

/-- The invariant: sides that differ will be seen to. -/
def State.Settling (s : State T V) : Prop := s.linked = true → s.hub = s.target ∨ s.Owed

/-- What owes in one state owes in another one with the same sides. -/
theorem Notice.Owes.congr {notice : Notice V} (h : notice.Owes s) (hv : s'.value = s.value) :
    notice.Owes s' := by
  cases notice with
  | pending side value => exact ⟨h.1, hv ▸ h.2⟩
  | delivered => exact h

theorem value_congr (hhub : s'.hub = s.hub) (htarget : s'.target = s.target) : s'.value = s.value := by
  funext side
  cases side
  · exact hhub
  · exact htarget

theorem Nested.Owes.congr {frame : Nested V} (h : frame.Owes s) (hhub : s'.hub = s.hub)
    (htarget : s'.target = s.target) : frame.Owes s' := by
  have hv := value_congr hhub htarget
  cases frame with
  | notice call => exact Notice.Owes.congr h hv
  | compareHub side value =>
    show (s'.value side).isSome = true
    rw [hv]
    exact h
  | compareTarget side value hub =>
    refine ⟨?_, hhub.trans h.2⟩
    rw [hv]
    exact h.1
  | append side value =>
    show (s'.value side).isSome = true
    rw [hv]
    exact h

theorem Phase.Owes.congr {phase : Phase V} (h : phase.Owes s) (hhub : s'.hub = s.hub)
    (htarget : s'.target = s.target) : phase.Owes s' := by
  cases phase with
  | process side =>
    show (s'.value side).isSome = true
    rw [value_congr hhub htarget]
    exact h
  | setTarget value => exact hhub.trans h
  | readCoerced value => exact ⟨hhub.trans h.1, htarget ▸ h.2⟩
  | setHub value => exact htarget.trans h
  | drain => exact h

/-- Only the given threads have notifications. -/
def State.Within (s : State T V) (threads : Finset T) : Prop :=
  ∀ thread, thread ∉ threads → s.notices thread = []

theorem State.Within.mono {threads threads' : Finset T} (h : s.Within threads) (hsub : threads ⊆ threads') :
    s.Within threads' := fun thread hout => h thread fun hmem => hout (hsub hmem)

/-! ## Assignments -/

variable [DecidableEq T]

@[simp] theorem hub_notify (thread : T) (side : Side) (value : Option V) :
    (s.notify thread side value).hub = s.hub := by
  unfold State.notify
  dsimp only
  split
  · rfl
  · split <;> rfl

@[simp] theorem target_notify (thread : T) (side : Side) (value : Option V) :
    (s.notify thread side value).target = s.target := by
  unfold State.notify
  dsimp only
  split
  · rfl
  · split <;> rfl

@[simp] theorem value_notify (thread : T) (side side' : Side) (value : Option V) :
    (s.notify thread side value).value side' = s.value side' := by
  cases side' <;> simp [State.value]

/-- A change of a side that has a value is owed. -/
theorem owed_notify (thread : T) {side : Side} {value : Option V} (hvalue : value.isSome = true)
    (hside : (s.value side).isSome = true) : (s.notify thread side value).Owed := by
  have howes : (Notice.pending side value).Owes (s.notify thread side value) := by
    refine ⟨hvalue, ?_⟩
    rw [value_notify]
    exact hside
  have houtside : Notice.pending side value ∈
      Function.update s.notices thread (.pending side value :: s.notices thread) thread := by
    rw [Function.update_self]
    exact List.mem_cons_self ..
  unfold State.notify at howes ⊢
  dsimp only at howes ⊢
  split
  · rename_i hnone
    rw [hnone] at howes
    exact .notice houtside howes
  · rename_i d hd
    simp only [hd] at howes
    split at howes
    · rename_i hthread
      rw [if_pos hthread]
      exact .nested rfl (List.mem_cons_self ..) howes
    · rename_i hthread
      rw [if_neg hthread]
      exact .notice houtside howes

variable [DecidableEq V] {link : Link V}

theorem setHub_cases (thread : T) (value : V) :
    (s.setHub thread (some value) = s ∧ s.hub = some value) ∨ (s.setHub thread (some value)).Owed := by
  unfold State.setHub
  split
  · rename_i hsame
    exact Or.inl ⟨rfl, hsame⟩
  · exact Or.inr (owed_notify thread rfl rfl)

/-- The link listens to the target, which accepts every value. -/
structure Link.Accepts (link : Link V) : Prop where
  bidirectional : link.bidirectional = true
  coerces : ∀ value, ∃ stored, link.coerce (some value) = some (some stored)

theorem setTarget_cases (hl : link.Accepts) (thread : T) (value : V) :
    ∃ next, link.setTarget s thread (some value) = some next ∧
      (next = s ∧ s.target.isSome = true ∨ next.Owed) := by
  obtain ⟨stored, hstored⟩ := hl.coerces value
  unfold Link.setTarget
  rw [hstored, Option.map_some]
  refine ⟨_, rfl, ?_⟩
  split
  · rename_i hsame
    exact Or.inl ⟨rfl, by simp [hsame]⟩
  · rw [if_pos hl.bidirectional]
    exact Or.inr (owed_notify thread rfl rfl)

/-! ## Steps -/

omit [DecidableEq T] [DecidableEq V] in
/-- What is owed stays owed while the sides are left alone, when each obligation is kept or leads to
another one. -/
theorem State.Owed.keep (h : s.Owed) (hhub : s'.hub = s.hub) (htarget : s'.target = s.target)
    (hnotices : ∀ thread, ∀ call ∈ s.notices thread, call.Owes s →
      s'.Owed ∨ call ∈ s'.notices thread)
    (hdispatch : ∀ d, s.dispatch = some d → ∃ d', s'.dispatch = some d' ∧ d.queue ⊆ d'.queue ∧
      (∀ frame ∈ d.nested, frame.Owes s → s'.Owed ∨ frame ∈ d'.nested) ∧
      (d.phase.Owes s → s'.Owed ∨ d'.phase = d.phase)) : s'.Owed := by
  have hv := value_congr hhub htarget
  cases h with
  | notice hmem howes =>
    rcases hnotices _ _ hmem howes with hnext | hkept
    · exact hnext
    · exact .notice hkept (howes.congr hv)
  | queued hd hmem hside =>
    obtain ⟨d', hd', hqueue, -, -⟩ := hdispatch _ hd
    exact .queued hd' (hqueue hmem) (hv ▸ hside)
  | nested hd hmem howes =>
    obtain ⟨d', hd', -, hnested, -⟩ := hdispatch _ hd
    rcases hnested _ hmem howes with hnext | hkept
    · exact hnext
    · exact .nested hd' hkept (howes.congr hhub htarget)
  | phase hd howes =>
    obtain ⟨d', hd', -, -, hphase⟩ := hdispatch _ hd
    rcases hphase howes with hnext | hkept
    · exact hnext
    · exact .phase hd' (hkept ▸ howes.congr hhub htarget)

/-- A notification that is received is queued, or starts a dispatch. -/
theorem settling_noticeStep {thread : T} (h : s.Settling)
    (hs : Link.noticeStep s thread = some s') : s'.Settling := by
  have hother : ∀ {calls : List (Notice V)} {other : T} {call : Notice V},
      call ∈ s.notices other → other ≠ thread →
        call ∈ Function.update s.notices thread calls other := by
    intro calls other call hmem hne
    rwa [Function.update_of_ne hne]
  unfold Link.noticeStep at hs
  split at hs
  · cases hs
  · rename_i rest hcalls
    obtain rfl := Option.some.inj hs
    intro hlinked
    refine (h hlinked).imp_right fun howed => ?_
    refine howed.keep rfl rfl (fun other call hmem howes => Or.inr ?_)
      fun d hd => ⟨d, hd, List.Subset.refl _, fun _ hf _ => Or.inr hf, fun _ => Or.inr rfl⟩
    by_cases hne : other = thread
    · subst hne
      rw [hcalls] at hmem
      rcases List.mem_cons.mp hmem with rfl | hrest
      · exact howes.elim
      · show call ∈ Function.update s.notices other rest other
        rwa [Function.update_self]
    · exact hother hmem hne
  · rename_i side value rest hcalls
    obtain rfl := Option.some.inj hs
    -- the other notifications stay where they are
    have hkept : ∀ other, ∀ call ∈ s.notices other, call ≠ .pending side value →
        call ∈ Function.update s.notices thread (.delivered :: rest) other := by
      intro other call hmem hne
      by_cases hother' : other = thread
      · subst hother'
        rw [hcalls] at hmem
        rw [Function.update_self]
        exact List.mem_cons_of_mem _ ((List.mem_cons.mp hmem).resolve_left hne)
      · exact hother hmem hother'
    cases value with
    | none =>
      intro hlinked
      refine (h hlinked).imp_right fun howed => ?_
      refine howed.keep rfl rfl (fun other call hmem howes => Or.inr ?_)
        fun d hd => ⟨d, hd, List.Subset.refl _, fun _ hf _ => Or.inr hf, fun _ => Or.inr rfl⟩
      refine hkept other call hmem ?_
      rintro rfl
      cases howes.1
    | some value =>
      unfold Link.enter
      dsimp only
      by_cases hlinked : s.linked = true
      · rw [if_neg (by simp [hlinked])]
        split
        · rename_i d hd
          refine fun _ => (h hlinked).imp_right fun howed => ?_
          refine howed.keep rfl rfl (fun other call hmem howes => ?_) fun d' hd' => ?_
          · by_cases hcall : call = .pending side (some value)
            · subst hcall
              exact Or.inl (.queued rfl (List.mem_append_right _ (List.mem_singleton_self _)) howes.2)
            · exact Or.inr (hkept other call hmem hcall)
          · obtain rfl : d = d' := Option.some.inj (hd.symm.trans hd')
            exact ⟨_, rfl, List.subset_append_left _ _, fun _ hf _ => Or.inr hf, fun _ => Or.inr rfl⟩
        · rename_i hnone
          refine fun _ => (h hlinked).imp_right fun howed => ?_
          refine howed.keep rfl rfl (fun other call hmem howes => ?_) fun d' hd' => ?_
          · by_cases hcall : call = .pending side (some value)
            · subst hcall
              exact Or.inl (.phase rfl howes.2)
            · exact Or.inr (hkept other call hmem hcall)
          · exact nomatch hnone.symm.trans hd'
      · rw [if_pos (by simpa using hlinked)]
        exact fun hl => absurd hl hlinked

omit [DecidableEq T] in
/-- A nested dispatch ends with an echo that agrees, or in the queue. -/
theorem settling_nestedStep {d : Dispatch T V} {frame : Nested V} {rest : List (Nested V)}
    (h : s.Settling) (hd : s.dispatch = some d) (hnested : d.nested = frame :: rest) :
    ({ s with dispatch := some (Link.nestedStep s d rest frame) } : State T V).Settling := by
  intro hlinked
  have hlinked' : s.linked = true := hlinked
  -- everything but the frame is kept
  have hkeep : ∀ {next : Dispatch T V}, d.queue ⊆ next.queue → rest ⊆ next.nested →
      next.phase = d.phase → (frame.Owes s → s.hub = s.target ∨
        ({ s with dispatch := some next } : State T V).Owed) →
          s.hub = s.target ∨ ({ s with dispatch := some next } : State T V).Owed := by
    intro next hqueue hrest hphase hframe
    by_cases hsame : s.hub = s.target
    · exact Or.inl hsame
    refine Or.inr (((h hlinked').resolve_left hsame).keep rfl rfl (fun _ _ hmem _ => Or.inr hmem) ?_)
    intro d' hd'
    obtain rfl : d = d' := Option.some.inj (hd.symm.trans hd')
    refine ⟨next, rfl, hqueue, fun f hf howes => ?_, fun _ => Or.inr hphase⟩
    rw [hnested] at hf
    rcases List.mem_cons.mp hf with rfl | hf
    · exact Or.inl ((hframe howes).resolve_left hsame)
    · exact Or.inr (hrest hf)
  cases frame with
  | notice call =>
    cases call with
    | delivered => exact hkeep (List.Subset.refl _) (List.Subset.refl _) rfl fun howes => howes.elim
    | pending side value =>
      cases value with
      | none =>
        refine hkeep (List.Subset.refl _) (List.subset_cons_self ..) rfl fun howes => ?_
        cases howes.1
      | some value =>
        unfold Link.nestedStep
        dsimp only
        rw [if_pos hlinked']
        refine hkeep (List.Subset.refl _) ?_ rfl fun howes => Or.inr ?_
        · exact fun f hf => List.mem_cons_of_mem _ (List.mem_cons_of_mem _ hf)
        · exact .nested rfl (List.mem_cons_self ..) howes.2
  | compareHub side value =>
    refine hkeep (List.Subset.refl _) (List.subset_cons_self ..) rfl fun howes => Or.inr ?_
    exact .nested rfl (List.mem_cons_self ..) ⟨howes, rfl⟩
  | compareTarget side value hub =>
    unfold Link.nestedStep
    dsimp only
    split
    · rename_i hagrees
      exact hkeep (List.Subset.refl _) (List.Subset.refl _) rfl fun howes =>
        Or.inl (howes.2.trans hagrees)
    · refine hkeep (List.Subset.refl _) (List.subset_cons_self ..) rfl fun howes => Or.inr ?_
      exact .nested rfl (List.mem_cons_self ..) howes.1
  | append side value =>
    unfold Link.nestedStep
    dsimp only
    rw [if_pos hlinked']
    refine hkeep (List.subset_append_left _ _) (List.Subset.refl _) rfl fun howes => Or.inr ?_
    exact .queued rfl (List.mem_append_right _ (List.mem_singleton_self _)) howes

omit [DecidableEq T] in
/-- What is owed but by the phase stays owed at another place of the loop. -/
theorem settling_goto {d : Dispatch T V} {phase : Phase V} (h : s.Settling)
    (hd : s.dispatch = some d)
    (hphase : d.phase.Owes s → s.hub = s.target ∨ (Link.goto s d phase).Owed) :
    (Link.goto s d phase).Settling := by
  intro hlinked
  by_cases hsame : s.hub = s.target
  · exact Or.inl hsame
  refine Or.inr (((h hlinked).resolve_left hsame).keep rfl rfl (fun _ _ hmem _ => Or.inr hmem) ?_)
  intro d' hd'
  obtain rfl : d = d' := Option.some.inj (hd.symm.trans hd')
  exact ⟨_, rfl, List.Subset.refl _, fun _ hf _ => Or.inr hf,
    fun howes => Or.inl ((hphase howes).resolve_left hsame)⟩

omit [DecidableEq T] [DecidableEq V] in
theorem State.Owed.settling (h : s.Owed) : s.Settling := fun _ => Or.inr h

/-- The loop itself ends with sides that agree, unless something else is owed by then. -/
theorem settling_phaseStep (hl : link.Accepts) {d : Dispatch T V} (h : s.Settling)
    (hd : s.dispatch = some d) (hnested : d.nested = []) : (link.phaseStep s d).Settling := by
  unfold Link.phaseStep
  split
  · rename_i hphase
    split
    · rename_i hnone
      refine settling_goto h hd fun howes => ?_
      rw [hphase] at howes
      exact absurd howes (by simp [Phase.Owes, State.value, hnone])
    · rename_i value hhub
      exact settling_goto h hd fun _ => Or.inr (.phase rfl hhub)
  · rename_i hphase
    split
    · rename_i hnone
      refine settling_goto h hd fun howes => ?_
      rw [hphase] at howes
      exact absurd howes (by simp [Phase.Owes, State.value, hnone])
    · rename_i value htarget
      exact settling_goto h hd fun _ => Or.inr (.phase rfl htarget)
  · rename_i value hphase
    dsimp only
    rw [if_pos hl.bidirectional]
    obtain ⟨next, hnext, hcases⟩ := setTarget_cases (s := Link.goto s d (.readCoerced value)) hl
      d.activeThread value
    rw [hnext]
    rcases hcases with ⟨rfl, htarget⟩ | howed
    · refine settling_goto h hd fun howes => Or.inr (.phase rfl ⟨?_, htarget⟩)
      rw [hphase] at howes
      exact howes
    · exact howed.settling
  · rename_i value hphase
    split
    · rename_i hnone
      refine settling_goto h hd fun howes => ?_
      rw [hphase] at howes
      exact absurd howes.2 (by simp [hnone])
    · rename_i coerced htarget
      split
      · rename_i hsame
        refine settling_goto h hd fun howes => Or.inl ?_
        rw [hphase] at howes
        exact howes.1.trans (by rw [htarget, hsame])
      · exact settling_goto h hd fun _ => Or.inr (.phase rfl htarget)
  · rename_i value hphase
    rcases setHub_cases (s := Link.goto s d .drain) d.activeThread value with ⟨hsame, hhub⟩ | howed
    · rw [hsame]
      refine settling_goto h hd fun howes => Or.inl ?_
      rw [hphase] at howes
      exact (hhub : s.hub = some value).trans (howes : s.target = some value).symm
    · exact howed.settling
  · rename_i hphase
    split
    · rename_i side value queue hlinked hqueue
      refine fun _ => (h hlinked).imp_right fun howed => ?_
      cases howed with
      | notice hmem howes => exact .notice hmem (howes.congr rfl)
      | queued hd' hmem hside =>
        obtain rfl := Option.some.inj (hd.symm.trans hd')
        rw [hqueue] at hmem
        rcases List.mem_cons.mp hmem with rfl | hmem
        · exact .phase rfl hside
        · exact .queued rfl hmem hside
      | nested hd' hmem _ =>
        obtain rfl := Option.some.inj (hd.symm.trans hd')
        rw [hnested] at hmem
        cases hmem
      | phase hd' howes =>
        obtain rfl := Option.some.inj (hd.symm.trans hd')
        rw [hphase] at howes
        exact howes.elim
    · rename_i hend
      refine fun hlinked => (h hlinked).imp_right fun howed => ?_
      cases howed with
      | notice hmem howes => exact .notice hmem (howes.congr rfl)
      | queued hd' hmem _ =>
        obtain rfl := Option.some.inj (hd.symm.trans hd')
        obtain ⟨item, queue, hqueue⟩ := List.exists_cons_of_ne_nil (List.ne_nil_of_mem hmem)
        exact (hend item.1 item.2 queue hlinked hqueue).elim
      | nested hd' hmem _ =>
        obtain rfl := Option.some.inj (hd.symm.trans hd')
        rw [hnested] at hmem
        cases hmem
      | phase hd' howes =>
        obtain rfl := Option.some.inj (hd.symm.trans hd')
        rw [hphase] at howes
        exact howes.elim

theorem settling_step (hl : link.Accepts) {thread : T} (h : s.Settling)
    (hs : link.step s thread = some s') : s'.Settling := by
  unfold Link.step at hs
  split at hs
  · exact settling_noticeStep h hs
  · rename_i d hd
    split at hs
    · split at hs
      · rename_i hnested
        obtain rfl := Option.some.inj hs
        exact settling_phaseStep hl h hd hnested
      · rename_i frame rest hnested
        obtain rfl := Option.some.inj hs
        exact settling_nestedStep h hd hnested
    · exact settling_noticeStep h hs

/-- A change of the user is to a value. -/
def Event.Changes (event : Event T V) : Prop :=
  match event with
  | .edit _ _ value => value.isSome = true
  | .run _ | .unlink _ => True

instance (event : Event T V) : Decidable event.Changes := by
  unfold Event.Changes
  split <;> infer_instance

theorem settling_next (hl : link.Accepts) {event : Event T V} (h : s.Settling)
    (hc : event.Changes) (hs : link.next s event = some s') : s'.Settling := by
  cases event with
  | run thread => exact settling_step hl h hs
  | edit thread side value =>
    obtain ⟨value, rfl⟩ := Option.isSome_iff_exists.mp hc
    obtain ⟨-, hs⟩ := Option.ite_none_right_eq_some.mp hs
    cases side with
    | hub =>
      obtain rfl := Option.some.inj hs
      rcases setHub_cases (s := s) thread value with ⟨hsame, -⟩ | howed
      · rw [hsame]
        exact h
      · exact howed.settling
    | target =>
      obtain ⟨next, hnext, hcases⟩ := setTarget_cases (s := s) hl thread value
      obtain rfl := Option.some.inj (hnext.symm.trans hs)
      rcases hcases with ⟨rfl, -⟩ | howed
      · exact h
      · exact howed.settling
  | unlink thread =>
    obtain ⟨-, hs⟩ := Option.ite_none_right_eq_some.mp hs
    obtain rfl := Option.some.inj hs
    exact fun hlinked => nomatch (hlinked : false = true)

/-! ## The cost of what is left to do -/

/-- The steps that a queued change may take. -/
def Side.cost : Side → Nat
  | .hub => 21
  | .target => 7

def Notice.cost : Notice V → Nat
  | .pending _ _ => 23
  | .delivered => 1

/-- A nested dispatch is cheap when it finds an echo that agrees. -/
def Nested.cost (hub target : Option V) : Nested V → Nat
  | .notice .delivered => 1
  | .notice (.pending side _) => if hub = target then 4 else side.cost + 5
  | .compareHub side _ => if hub = target then 2 else side.cost + 3
  | .compareTarget side _ seen => if seen = target then 1 else side.cost + 2
  | .append side _ => side.cost + 1

/-- Assigning the target's own value to the hub is cheap: its echo agrees. -/
def Phase.cost (target : Option V) : Phase V → Nat
  | .process side => side.cost
  | .setTarget _ => 20
  | .readCoerced _ => 7
  | .setHub value => if target = some value then 6 else 28
  | .drain => 1

def queueCost (queue : List (Side × V)) : Nat := (queue.map fun item => item.1.cost).sum

def nestedCost (hub target : Option V) (nested : List (Nested V)) : Nat :=
  (nested.map (Nested.cost hub target)).sum

def Dispatch.cost (hub target : Option V) (d : Dispatch T V) : Nat :=
  d.phase.cost target + nestedCost hub target d.nested + queueCost d.queue

def noticesCost (threads : Finset T) (notices : T → List (Notice V)) : Nat :=
  ∑ thread ∈ threads, ((notices thread).map Notice.cost).sum

/-- The steps that are left to do, when only the given threads have notifications. -/
def State.cost (s : State T V) (threads : Finset T) : Nat :=
  noticesCost threads s.notices + (s.dispatch.map (Dispatch.cost s.hub s.target)).getD 0

theorem Side.cost_le (side : Side) : side.cost ≤ 21 := by cases side <;> decide

omit [DecidableEq V] in
theorem noticesCost_update {threads : Finset T} {thread : T} (hmem : thread ∈ threads)
    (notices : T → List (Notice V)) (calls : List (Notice V)) :
    noticesCost threads (Function.update notices thread calls) +
        ((notices thread).map Notice.cost).sum =
      noticesCost threads notices + (calls.map Notice.cost).sum := by
  unfold noticesCost
  rw [← Finset.add_sum_erase threads _ hmem, ← Finset.add_sum_erase threads (fun thread =>
    ((notices thread).map Notice.cost).sum) hmem, Function.update_self]
  have hrest : ∑ other ∈ threads.erase thread,
      ((Function.update notices thread calls other).map Notice.cost).sum =
        ∑ other ∈ threads.erase thread, ((notices other).map Notice.cost).sum := by
    refine Finset.sum_congr rfl fun other hother => ?_
    rw [Function.update_of_ne (Finset.ne_of_mem_erase hother)]
  rw [hrest]
  omega

omit [DecidableEq V] in
theorem within_update {threads : Finset T} {thread : T} {calls : List (Notice V)}
    (h : s.Within threads) (hmem : thread ∈ threads) (other : T) (hother : other ∉ threads) :
    Function.update s.notices thread calls other = [] := by
  have hne : other ≠ thread := fun heq => hother (heq ▸ hmem)
  rw [Function.update_of_ne hne]
  exact h other hother

omit [DecidableEq V] in
@[simp] theorem queueCost_append (queue queue' : List (Side × V)) :
    queueCost (queue ++ queue') = queueCost queue + queueCost queue' := by
  unfold queueCost
  rw [List.map_append, List.sum_append]

@[simp] theorem nestedCost_append (hub target : Option V) (nested nested' : List (Nested V)) :
    nestedCost hub target (nested ++ nested') =
      nestedCost hub target nested + nestedCost hub target nested' := by
  unfold nestedCost
  rw [List.map_append, List.sum_append]

omit [DecidableEq T] in
theorem cost_enter {threads : Finset T} (thread : T) (side : Side) (value : Option V) :
    (Link.enter s thread side value).cost threads ≤ s.cost threads + 21 := by
  have hside := side.cost_le
  unfold Link.enter State.cost
  split
  · omega
  · rename_i value
    split
    · omega
    · split
      · rename_i d hd
        have hcost : Dispatch.cost s.hub s.target { d with queue := d.queue ++ [(side, value)] } =
            d.cost s.hub s.target + side.cost := by
          unfold Dispatch.cost
          rw [queueCost_append]
          exact (Nat.add_assoc ..).symm
        rw [hd]
        dsimp only
        rw [Option.map_some, Option.map_some, Option.getD_some, Option.getD_some, hcost]
        omega
      · rename_i hd
        have hcost : Dispatch.cost s.hub s.target
            ({ activeThread := thread, phase := .process side } : Dispatch T V) = side.cost := rfl
        rw [hd]
        dsimp only
        rw [Option.map_none, Option.map_some, Option.getD_none, Option.getD_some, hcost]
        omega

theorem cost_noticeStep {threads : Finset T} {thread : T} (h : s.Within threads)
    (hs : Link.noticeStep s thread = some s') : s'.cost threads < s.cost threads := by
  have hmem : s.notices thread ≠ [] → thread ∈ threads := fun hne => by
    by_contra hout
    exact hne (h thread hout)
  unfold Link.noticeStep at hs
  split at hs
  · cases hs
  · rename_i rest hcalls
    obtain rfl := Option.some.inj hs
    have hcost := noticesCost_update (hmem (by rw [hcalls]; exact List.cons_ne_nil _ _)) s.notices rest
    rw [hcalls] at hcost
    simp only [List.map_cons, List.sum_cons, Notice.cost] at hcost
    show noticesCost threads (Function.update s.notices thread rest) +
      (s.dispatch.map (Dispatch.cost s.hub s.target)).getD 0 < s.cost threads
    unfold State.cost
    omega
  · rename_i side value rest hcalls
    obtain rfl := Option.some.inj hs
    have hcost := noticesCost_update (hmem (by rw [hcalls]; exact List.cons_ne_nil _ _))
      s.notices (.delivered :: rest)
    rw [hcalls] at hcost
    simp only [List.map_cons, List.sum_cons, Notice.cost] at hcost
    refine lt_of_le_of_lt (cost_enter thread side value) ?_
    show noticesCost threads (Function.update s.notices thread (.delivered :: rest)) +
      (s.dispatch.map (Dispatch.cost s.hub s.target)).getD 0 + 21 < s.cost threads
    unfold State.cost
    omega

omit [DecidableEq T] in
/-- What a frame leaves behind costs less than the frame. -/
theorem nestedStep_leaves (d : Dispatch T V) (frame : Nested V) (rest : List (Nested V)) :
    ∃ added items, Link.nestedStep s d rest frame =
        { d with nested := added ++ rest, queue := d.queue ++ items } ∧
      nestedCost s.hub s.target added + queueCost items < frame.cost s.hub s.target := by
  have hqueue : d.queue = d.queue ++ [] := (List.append_nil _).symm
  have hone : nestedCost s.hub s.target [.notice .delivered] = 1 := rfl
  have hsingle : ∀ frame : Nested V, nestedCost s.hub s.target [frame] =
      frame.cost s.hub s.target := fun frame => Nat.add_zero _
  have hnone : queueCost ([] : List (Side × V)) = 0 := rfl
  unfold Link.nestedStep
  split
  · refine ⟨[], [], by rw [← hqueue]; rfl, ?_⟩
    exact Nat.zero_lt_one
  · rename_i side value
    have hcheap : 3 < (Nested.notice (.pending side value)).cost s.hub s.target := by
      simp only [Nested.cost]
      split <;> omega
    split
    · rename_i value
      split
      · refine ⟨[.compareHub side value] ++ [.notice .delivered], [], by rw [← hqueue]; rfl, ?_⟩
        rw [nestedCost_append, hone, hsingle, hnone]
        simp only [Nested.cost]
        split <;> omega
      · refine ⟨[.notice .delivered], [], by rw [← hqueue]; rfl, ?_⟩
        rw [hone, hnone]
        omega
    · refine ⟨[.notice .delivered], [], by rw [← hqueue]; rfl, ?_⟩
      rw [hone, hnone]
      omega
  · rename_i side value
    refine ⟨[.compareTarget side value s.hub], [], by rw [← hqueue]; rfl, ?_⟩
    rw [hsingle, hnone]
    simp only [Nested.cost]
    split <;> omega
  · rename_i side value seen
    split
    · rename_i hagrees
      refine ⟨[], [], by rw [← hqueue]; rfl, ?_⟩
      rw [hnone]
      simp only [Nested.cost, if_pos hagrees]
      exact Nat.zero_lt_one
    · rename_i hdiffer
      refine ⟨[.append side value], [], by rw [← hqueue]; rfl, ?_⟩
      rw [hsingle, hnone]
      simp only [Nested.cost, if_neg hdiffer]
      omega
  · rename_i side value
    have hitem : queueCost [(side, value)] = side.cost := Nat.add_zero _
    have hnil : nestedCost s.hub s.target [] = 0 := rfl
    split
    · refine ⟨[], [(side, value)], rfl, ?_⟩
      rw [hnil, hitem]
      simp only [Nested.cost]
      omega
    · refine ⟨[], [], by rw [← hqueue]; rfl, ?_⟩
      rw [hnil, hnone]
      simp only [Nested.cost]
      omega

omit [DecidableEq T] in
theorem cost_nestedStep {d : Dispatch T V} {frame : Nested V} {rest : List (Nested V)}
    (hnested : d.nested = frame :: rest) :
    (Link.nestedStep s d rest frame).cost s.hub s.target < d.cost s.hub s.target := by
  obtain ⟨added, items, heq, hcost⟩ := nestedStep_leaves (s := s) d frame rest
  rw [heq]
  unfold Dispatch.cost
  dsimp only
  rw [nestedCost_append, queueCost_append, hnested]
  have hcons : nestedCost s.hub s.target (frame :: rest) =
      frame.cost s.hub s.target + nestedCost s.hub s.target rest := rfl
  omega

omit [DecidableEq T] in
theorem cost_eq {threads : Finset T} {d : Dispatch T V} (hd : s.dispatch = some d) :
    s.cost threads = noticesCost threads s.notices + d.cost s.hub s.target := by
  unfold State.cost
  rw [hd]
  rfl

omit [DecidableEq V] in
/-- A notification of the dispatching thread itself. -/
theorem notify_active {d : Dispatch T V} (hd : s.dispatch = some d) (side : Side)
    (value : Option V) : s.notify d.activeThread side value =
      { s with dispatch := some { d with nested := .notice (.pending side value) :: d.nested } } := by
  unfold State.notify
  rw [hd]
  exact if_pos rfl

theorem cost_notify_active {threads : Finset T} {d : Dispatch T V} (hd : s.dispatch = some d)
    (side : Side) (value : Option V) : (s.notify d.activeThread side value).cost threads =
      s.cost threads + (Nested.notice (.pending side value)).cost s.hub s.target := by
  have hcons : nestedCost s.hub s.target (.notice (.pending side value) :: d.nested) =
      (Nested.notice (.pending side value)).cost s.hub s.target +
        nestedCost s.hub s.target d.nested := rfl
  rw [notify_active hd, cost_eq hd, cost_eq rfl]
  unfold Dispatch.cost
  dsimp only
  rw [hcons]
  omega

section PhaseStep

variable {threads : Finset T} {d : Dispatch T V}

omit [DecidableEq T] in
/-- Inside the loop nothing is on top of the dispatch. -/
theorem cost_goto (hnested : d.nested = []) (phase : Phase V) :
    (Link.goto s d phase).cost threads =
      noticesCost threads s.notices + (phase.cost s.target + queueCost d.queue) := by
  rw [cost_eq (d := { d with phase := phase }) rfl]
  unfold Dispatch.cost
  dsimp only
  rw [hnested]
  rfl

theorem cost_setHub (hnested : d.nested = []) (value : V) :
    ((Link.goto s d .drain).setHub d.activeThread (some value)).cost threads <
      (Link.goto s d (.setHub value)).cost threads := by
  rw [cost_goto hnested]
  unfold State.setHub
  split
  · rw [cost_goto hnested]
    simp only [Phase.cost]
    split <;> omega
  · have hactive := @cost_notify_active _ _ { Link.goto s d .drain with hub := some value } _ _ threads
      { d with phase := .drain } rfl .hub (some value)
    have hgoto : ({ Link.goto s d .drain with hub := some value } : State T V).cost threads =
        noticesCost threads s.notices + (1 + queueCost d.queue) :=
      cost_goto (s := { s with hub := some value }) hnested .drain
    rw [hgoto] at hactive
    refine lt_of_eq_of_lt hactive ?_
    simp only [Phase.cost, Nested.cost, Side.cost]
    show _ + (if some value = s.target then 4 else 21 + 5) < _
    by_cases hsame : s.target = some value
    · rw [if_pos hsame, if_pos hsame.symm]
      omega
    · rw [if_neg hsame, if_neg (Ne.symm hsame)]
      omega

theorem cost_setTarget (hnested : d.nested = []) (value : V) :
    (((link.setTarget (Link.goto s d (if link.bidirectional then .readCoerced value else .drain))
      d.activeThread (some value)).getD (Link.goto s d .drain))).cost threads <
        (Link.goto s d (.setTarget value)).cost threads := by
  rw [cost_goto hnested]
  unfold Link.setTarget
  cases link.coerce (some value) with
  | none =>
    show (Link.goto s d .drain).cost threads < _
    rw [cost_goto hnested]
    simp only [Phase.cost]
    omega
  | some stored =>
    rw [Option.map_some, Option.getD_some]
    by_cases hb : link.bidirectional = true
    · rw [if_pos hb]
      split
      · rw [cost_goto hnested]
        simp only [Phase.cost]
        omega
      · have hactive := @cost_notify_active _ _ { Link.goto s d (.readCoerced value) with target := stored } _ _
          threads { d with phase := .readCoerced value } rfl .target stored
        have hgoto : ({ Link.goto s d (.readCoerced value) with
            target := stored } : State T V).cost threads =
              noticesCost threads s.notices + (7 + queueCost d.queue) :=
          cost_goto (s := { s with target := stored }) hnested (.readCoerced value)
        rw [hgoto] at hactive
        refine lt_of_eq_of_lt hactive ?_
        simp only [Phase.cost, Nested.cost, Side.cost]
        split <;> omega
    · rw [if_neg hb]
      split
      · rw [cost_goto hnested]
        simp only [Phase.cost]
        omega
      · have hgoto : ({ Link.goto s d .drain with target := stored } : State T V).cost threads =
            noticesCost threads s.notices + (1 + queueCost d.queue) :=
          cost_goto (s := { s with target := stored }) hnested .drain
        rw [hgoto]
        simp only [Phase.cost]
        omega

theorem cost_phaseStep (hd : s.dispatch = some d) (hnested : d.nested = []) :
    (link.phaseStep s d).cost threads < s.cost threads := by
  have hs : s.cost threads = (Link.goto s d d.phase).cost threads := by
    unfold Link.goto
    rw [← hd]
  rw [hs]
  unfold Link.phaseStep
  split
  · rename_i hphase
    rw [hphase]
    split
    · rw [cost_goto hnested, cost_goto hnested]
      simp only [Phase.cost, Side.cost]
      omega
    · rw [cost_goto hnested, cost_goto hnested]
      simp only [Phase.cost, Side.cost]
      omega
  · rename_i hphase
    rw [hphase]
    split
    · rw [cost_goto hnested, cost_goto hnested]
      simp only [Phase.cost, Side.cost]
      omega
    · rename_i value htarget
      rw [cost_goto hnested, cost_goto hnested]
      simp only [Phase.cost, Side.cost, if_pos htarget]
      omega
  · rename_i value hphase
    rw [hphase]
    exact cost_setTarget hnested value
  · rename_i value hphase
    rw [hphase]
    split
    · rw [cost_goto hnested, cost_goto hnested]
      simp only [Phase.cost]
      omega
    · rename_i coerced htarget
      split
      · rw [cost_goto hnested, cost_goto hnested]
        simp only [Phase.cost]
        omega
      · rw [cost_goto hnested, cost_goto hnested]
        simp only [Phase.cost, if_pos htarget]
        omega
  · rename_i value hphase
    rw [hphase]
    exact cost_setHub hnested value
  · rename_i hphase
    rw [hphase, cost_goto hnested]
    split
    · rename_i side value queue _ hqueue
      rw [cost_eq rfl]
      unfold Dispatch.cost
      dsimp only
      rw [hnested, hqueue]
      have hcons : queueCost ((side, value) :: queue) = side.cost + queueCost queue := rfl
      have hnil : nestedCost s.hub s.target [] = 0 := rfl
      rw [hcons, hnil]
      simp only [Phase.cost]
      omega
    · show noticesCost threads s.notices + 0 < _
      simp only [Phase.cost]
      omega

end PhaseStep

theorem cost_step {threads : Finset T} {thread : T} (h : s.Within threads)
    (hs : link.step s thread = some s') : s'.cost threads < s.cost threads := by
  unfold Link.step at hs
  split at hs
  · exact cost_noticeStep h hs
  · rename_i d hd
    split at hs
    · split at hs
      · rename_i hnested
        obtain rfl := Option.some.inj hs
        exact cost_phaseStep hd hnested
      · rename_i frame rest hnested
        obtain rfl := Option.some.inj hs
        have hcost := cost_nestedStep (s := s) hnested
        rw [cost_eq hd, cost_eq rfl]
        dsimp only
        omega
    · exact cost_noticeStep h hs

/-! ## Threads -/

omit [DecidableEq V] in
theorem within_notify {threads : Finset T} {thread : T} (h : s.Within threads)
    (hmem : thread ∈ threads) (side : Side) (value : Option V) :
    (s.notify thread side value).Within threads := by
  unfold State.notify
  dsimp only
  split
  · exact within_update h hmem
  · split
    · exact h
    · exact within_update h hmem

omit [DecidableEq V] in
/-- A thread that steps has something to do, and no other thread is concerned. -/
theorem within_noticeStep {threads : Finset T} {thread : T} (h : s.Within threads)
    (hs : Link.noticeStep s thread = some s') : s'.Within threads := by
  have hmem : s.notices thread ≠ [] → thread ∈ threads := fun hne => by
    by_contra hout
    exact hne (h thread hout)
  have henter : ∀ (s : State T V) side value, s.Within threads →
      (Link.enter s thread side value).Within threads := by
    intro s side value hs
    unfold Link.enter
    split
    · exact hs
    · split
      · exact hs
      · split <;> exact hs
  unfold Link.noticeStep at hs
  split at hs
  · cases hs
  · rename_i rest hcalls
    obtain rfl := Option.some.inj hs
    exact within_update h (hmem (by rw [hcalls]; exact List.cons_ne_nil _ _))
  · rename_i side value rest hcalls
    obtain rfl := Option.some.inj hs
    exact henter _ _ _ (within_update h (hmem (by rw [hcalls]; exact List.cons_ne_nil _ _)))

omit [DecidableEq V] in
theorem notices_notify_active {d : Dispatch T V} (hd : s.dispatch = some d) (side : Side)
    (value : Option V) : (s.notify d.activeThread side value).notices = s.notices := by
  rw [notify_active hd]

/-- The loop notifies on top of the dispatch only. -/
theorem notices_phaseStep (d : Dispatch T V) : (link.phaseStep s d).notices = s.notices := by
  unfold Link.phaseStep
  split
  · split <;> rfl
  · split <;> rfl
  · rename_i value _
    unfold Link.setTarget
    dsimp only
    cases link.coerce (some value) with
    | none => rfl
    | some stored =>
      rw [Option.map_some, Option.getD_some]
      by_cases hb : link.bidirectional = true
      · rw [if_pos hb]
        split
        · rfl
        · exact notices_notify_active (d := { d with phase := .readCoerced value })
            (s := { Link.goto s d (.readCoerced value) with target := stored }) rfl .target stored
      · rw [if_neg hb]
        split <;> rfl
  · split
    · rfl
    · split <;> rfl
  · rename_i value _
    unfold State.setHub
    split
    · rfl
    · exact notices_notify_active (d := { d with phase := .drain })
        (s := { Link.goto s d .drain with hub := some value }) rfl .hub (some value)
  · split <;> rfl

theorem within_step {threads : Finset T} {thread : T} (h : s.Within threads)
    (hs : link.step s thread = some s') : s'.Within threads := by
  unfold Link.step at hs
  split at hs
  · exact within_noticeStep h hs
  · rename_i d hd
    split at hs
    · split at hs
      · obtain rfl := Option.some.inj hs
        intro other hother
        rw [notices_phaseStep]
        exact h other hother
      · obtain rfl := Option.some.inj hs
        exact h
    · exact within_noticeStep h hs

/-- An edit concerns the thread that makes it. -/
theorem within_next {threads : Finset T} {event : Event T V} (h : s.Within threads)
    (hs : link.next s event = some s') : ∃ threads, s'.Within threads := by
  cases event with
  | run thread => exact ⟨threads, within_step h hs⟩
  | edit thread side value =>
    obtain ⟨-, hs⟩ := Option.ite_none_right_eq_some.mp hs
    have hmore : ∀ {s : State T V}, s.Within threads → s.Within (insert thread threads) :=
      fun h => h.mono (Finset.subset_insert ..)
    refine ⟨insert thread threads, ?_⟩
    cases side with
    | hub =>
      obtain rfl := Option.some.inj hs
      unfold State.setHub
      split
      · exact hmore h
      · exact within_notify (hmore (s := { s with hub := value }) h) (Finset.mem_insert_self ..) _ _
    | target =>
      obtain ⟨stored, -, rfl⟩ := Option.map_eq_some_iff.mp hs
      split
      · exact hmore h
      · split
        · exact within_notify (hmore (s := { s with target := stored }) h)
            (Finset.mem_insert_self ..) _ _
        · exact hmore h
  | unlink thread =>
    obtain ⟨-, hs⟩ := Option.ite_none_right_eq_some.mp hs
    obtain rfl := Option.some.inj hs
    exact ⟨threads, h⟩

/-! ## Convergence -/

/-- Without further edits there are only so many steps. -/
theorem length_follow {threads : Finset T} (schedule : List T) : ∀ {s : State T V},
    s.Within threads → (link.follow schedule s).isSome = true → schedule.length ≤ s.cost threads := by
  induction schedule with
  | nil => exact fun _ _ => Nat.zero_le _
  | cons thread schedule ih =>
    intro s h hrun
    obtain ⟨last, hlast⟩ := Option.isSome_iff_exists.mp hrun
    obtain ⟨next, hnext, hrest⟩ := Option.bind_eq_some_iff.mp hlast
    have hle := ih (within_step h hnext) (Option.isSome_iff_exists.mpr ⟨last, hrest⟩)
    have hlt := cost_step h hnext
    rw [List.length_cons]
    omega

/-- From here on the dispatch ends, whatever thread goes on; where no thread can go on, nothing is left
to do; and the sides are equal once no change is being delivered. -/
structure Link.Converges (link : Link V) (s : State T V) : Prop where
  ends : ∃ bound, ∀ schedule : List T, (link.follow schedule s).isSome = true →
    schedule.length ≤ bound
  rests : (∀ thread, link.step s thread = none) → s.dispatch = none ∧ ∀ thread, s.notices thread = []
  equal : s.linked = true → s.Delivered → s.hub = s.target

theorem State.Settling.converges {threads : Finset T} (h : s.Settling) (hw : s.Within threads) :
    link.Converges s where
  ends := ⟨s.cost threads, fun schedule hrun => length_follow schedule hw hrun⟩
  rests hnone := by
    have hidle : s.dispatch = none := by
      cases hd : s.dispatch with
      | none => rfl
      | some d =>
        have hstuck := hnone d.activeThread
        unfold Link.step at hstuck
        rw [hd] at hstuck
        dsimp only at hstuck
        rw [if_pos rfl] at hstuck
        split at hstuck <;> cases hstuck
    refine ⟨hidle, fun thread => ?_⟩
    have hstuck := hnone thread
    unfold Link.step at hstuck
    rw [hidle] at hstuck
    unfold Link.noticeStep at hstuck
    dsimp only at hstuck
    split at hstuck
    · assumption
    · cases hstuck
    · cases hstuck
  equal hlinked hdelivered := by
    refine (h hlinked).resolve_right fun howed => ?_
    obtain ⟨hidle, hnotices⟩ := hdelivered
    cases howed with
    | notice hmem howes =>
      rw [hnotices _ _ hmem] at howes
      exact howes
    | queued hd _ _ => exact nomatch hidle.symm.trans hd
    | nested hd _ _ => exact nomatch hidle.symm.trans hd
    | phase hd _ => exact nomatch hidle.symm.trans hd

/-- A link with which nothing is being done, but for changes that are on their way: there is one, or
the sides are equal. -/
structure State.Begun (s : State T V) : Prop where
  idle : s.dispatch = none
  threads : ∃ threads : Finset T, s.Within threads
  change : s.hub = s.target ∨ ∃ thread side value,
    .pending side (some value) ∈ s.notices thread ∧ (s.value side).isSome = true

omit [DecidableEq V] in
/-- A new link has begun when its sides are equal or the one it starts with has a value. -/
theorem begun_made (hub target : Option V) (thread : T) (initial : Option Side)
    (h : hub = target ∨ ∃ side ∈ initial,
      (({ hub := hub, target := target } : State T V).value side).isSome = true) :
    (State.made hub target thread initial).Begun := by
  unfold State.made
  cases initial with
  | none =>
    refine ⟨rfl, ⟨∅, fun _ _ => rfl⟩, Or.inl (h.resolve_right ?_)⟩
    rintro ⟨side, hside, -⟩
    cases hside
  | some side =>
    refine ⟨rfl, ⟨{thread}, fun other hother => ?_⟩, h.imp_right fun hvalue => ?_⟩
    · have hne : other ≠ thread := fun heq => hother (Finset.mem_singleton.mpr heq)
      exact Function.update_of_ne hne _ _
    · obtain ⟨side', hside, hvalue⟩ := hvalue
      obtain rfl := Option.some.inj hside
      obtain ⟨value, heq⟩ := Option.isSome_iff_exists.mp hvalue
      refine ⟨thread, side, value, ?_, hvalue⟩
      dsimp only
      rw [Function.update_self, heq]
      exact List.mem_singleton_self _

/-- From its first change on a link between a hub and a target that accepts every value converges,
whatever its threads do. -/
theorem reachable_converges (hl : link.Accepts) {start : State T V} (hs : start.Begun)
    (h : Transition.Reachable link.next start (fun _ event => event.Changes) s) :
    link.Converges s := by
  have hkept : s.Settling ∧ ∃ threads, s.Within threads := by
    refine h.invariant (I := fun s => s.Settling ∧ ∃ threads, s.Within threads) ?_ ?_
    · refine ⟨fun _ => hs.change.imp_right ?_, hs.threads⟩
      rintro ⟨thread, side, value, hmem, hside⟩
      exact .notice hmem ⟨rfl, hside⟩
    · rintro s next event ⟨hsettling, threads, hwithin⟩ hc hnext
      exact ⟨settling_next hl hsettling hc hnext, within_next hwithin hnext⟩
  obtain ⟨hsettling, threads, hwithin⟩ := hkept
  exact hsettling.converges hwithin

/-- The values up to ten. -/
def clipped : Link Nat where
  coerce value := some (value.map (min 10))

/-- The hub's first value is on its way to the target when another thread sets the hub to one that the
target clips. -/
def editDuringDispatch : List (Event Nat Nat) :=
  [.run 0, .run 0, .edit 1 .hub (some 25), .run 0, .run 0, .run 1] ++ List.replicate 26 (.run 0)

theorem editDuringDispatch_runs : (Transition.run clipped.next editDuringDispatch
    (State.made (some 3) none 0 (some .hub))).isSome = true := by decide +kernel

theorem reachable_converges_editDuringDispatch :
    clipped.Converges ((Transition.run clipped.next editDuringDispatch
      (State.made (some 3) none 0 (some .hub))).get editDuringDispatch_runs) :=
  reachable_converges ⟨rfl, fun value => ⟨min 10 value, rfl⟩⟩
    (begun_made _ _ _ _ (Or.inr ⟨.hub, rfl, rfl⟩))
    (Transition.Reachable.of_run .start (by decide +kernel) editDuringDispatch_runs)

end Traitlet

end SeamlessWorkflow
