import SeamlessWorkflow.Proofs.UpheldTurns
import SeamlessWorkflow.Proofs.DerivedNodes

/-!
# The run ledger

A run record is the current run of one node or waits in the queue of one node, under a generation of
its own. `Tracked` is the invariant of the ledger together with what is still to come for its
records: the runs that have been handed out and the messages that have been posted.
-/

namespace SeamlessWorkflow

open Program

/-- The run ledger is well formed. -/
structure Ledger (rt : ContextRuntime) : Prop where
  placed : ∀ path, ∀ r ∈ rt.recordsAt path, r.nodePath = path
  /-- No record is in a queue twice, or in a queue and current. -/
  distinct : ∀ path, ((rt.recordsAt path).map RunRecord.generation).Nodup
  apart : ∀ p q, ∀ r ∈ rt.recordsAt p, ∀ s ∈ rt.recordsAt q, r.generation = s.generation → p = q
  bounded : ∀ path, ∀ r ∈ rt.recordsAt path, r.generation ≤ rt.generation
  capped : ∀ path, (rt.queue path).length ≤ supersededCap
  queued : ∀ path, ∀ r ∈ rt.queue path, r.phase = .superseded
  current : ∀ path r, rt.currentRuns.lookup path = some r → r.phase = .running ∨ r.phase = .completed

/-- The same run, whatever it has delivered. -/
structure SameRun (r r' : RunRecord) : Prop where
  nodePath : r'.nodePath = r.nodePath
  generation : r'.generation = r.generation
  launched : r'.launched = r.launched
  demandKey : r'.demandKey = r.demandKey

/-- Every record of a later ledger is a run of the earlier one, or has been started since. -/
structure Descends (start rt : ContextRuntime) : Prop where
  generation : start.generation ≤ rt.generation
  records : ∀ path, ∀ r' ∈ rt.recordsAt path, start.generation < r'.generation ∨
    ∃ r ∈ start.recordsAt path, SameRun r r'

/-- A run that still has to deliver. -/
def RunRecord.Awaited (r : RunRecord) : Prop :=
  r.launched = true ∧ r.resultChecksum = none ∧ r.error = none

/-- What holds of one record at a node. `pending` are the generations whose message is still to
come. -/
structure Entered (start : ContextRuntime) (pending : List Nat) (ctx : Ctx) (path : NodePath)
    (r : RunRecord) : Prop where
  placed : r.nodePath = path
  bounded : r.generation ≤ ctx.runtime.generation
  descends : start.generation < r.generation ∨ ∃ r₀ ∈ start.recordsAt path, SameRun r₀ r
  /-- The record of a cell holds its value from the start. -/
  unlaunched : r.launched = false → r.resultChecksum = r.identityChecksum ∧ r.demandKey = none
  awaited : r.generation ∈ pending → r.Awaited
  /-- A reference that is held for a record is held for its result. -/
  held : ∀ c, ctx.supersededRefholds.lookup r.generation = some c →
    ∀ c', r.resultChecksum = some c' → c' = c

/-- The invariant of the ledger. `issued` are the generations of all runs handed out so far. -/
structure Tracked (start : ContextRuntime) (issued pending : List Nat) (ctx : Ctx) : Prop where
  entered : ∀ path, ∀ r ∈ ctx.runtime.recordsAt path, Entered start pending ctx path r
  distinct : ∀ path, ((ctx.runtime.recordsAt path).map RunRecord.generation).Nodup
  apart : ∀ p q, ∀ r ∈ ctx.runtime.recordsAt p, ∀ s ∈ ctx.runtime.recordsAt q,
    r.generation = s.generation → p = q
  capped : ∀ path, (ctx.runtime.queue path).length ≤ supersededCap
  queued : ∀ path, ∀ r ∈ ctx.runtime.queue path, r.phase = .superseded
  current : ∀ path r, ctx.runtime.currentRuns.lookup path = some r →
    r.phase = .running ∨ r.phase = .completed
  /-- The current run of a cell has not been handed out. -/
  kind : ∀ path r, ctx.runtime.currentRuns.lookup path = some r → r.launched = true →
    (ctx.node? path).map Node.isCell = some false
  generation : start.generation ≤ ctx.runtime.generation
  issuedNodup : issued.Nodup
  pendingNodup : pending.Nodup
  known : ∀ g, g ∈ issued ∨ g ∈ pending ∨ (ctx.supersededRefholds.lookup g).isSome →
    g ≤ ctx.runtime.generation

/-- The references of superseded runs are those of the results in the queues. -/
def Ctx.HoldsQueued (ctx : Ctx) : Prop :=
  ∀ g c, ctx.supersededRefholds.lookup g = some c ↔
    ∃ path, ∃ r ∈ ctx.runtime.queue path, r.generation = g ∧ r.resultChecksum = some c

theorem SameRun.refl (r : RunRecord) : SameRun r r := ⟨rfl, rfl, rfl, rfl⟩

theorem SameRun.trans {a b c : RunRecord} (h : SameRun a b) (h' : SameRun b c) : SameRun a c :=
  ⟨h'.nodePath.trans h.nodePath, h'.generation.trans h.generation,
    h'.launched.trans h.launched, h'.demandKey.trans h.demandKey⟩

theorem ContextRuntime.mem_recordsAt {rt : ContextRuntime} {path : NodePath} {r : RunRecord} :
    r ∈ rt.recordsAt path ↔ rt.currentRuns.lookup path = some r ∨ r ∈ rt.queue path := by
  simp [recordsAt, Option.mem_toList]

namespace Tracked

variable {start : ContextRuntime} {issued issued' pending pending' : List Nat} {ctx ctx' : Ctx}

theorem ledger (h : Tracked start issued pending ctx) : Ledger ctx.runtime where
  placed path r hr := (h.entered path r hr).placed
  distinct := h.distinct
  apart := h.apart
  bounded path r hr := (h.entered path r hr).bounded
  capped := h.capped
  queued := h.queued
  current := h.current

theorem descends (h : Tracked start issued pending ctx) : Descends start ctx.runtime :=
  ⟨h.generation, fun path r hr => (h.entered path r hr).descends⟩

/-- A generation belongs to one record. -/
theorem unique (h : Tracked start issued pending ctx) {p q : NodePath} {r s : RunRecord}
    (hr : r ∈ ctx.runtime.recordsAt p) (hs : s ∈ ctx.runtime.recordsAt q)
    (he : r.generation = s.generation) : p = q ∧ r = s := by
  obtain rfl := h.apart p q r hr s hs he
  exact ⟨rfl, List.inj_on_of_nodup_map (h.distinct p) hr hs he⟩

/-- A record with a demand has been handed out. -/
theorem launched_of_demandKey (h : Tracked start issued pending ctx) {path : NodePath}
    {r : RunRecord} (hr : r ∈ ctx.runtime.recordsAt path) {key : DemandKey}
    (hk : r.demandKey = some key) : r.launched = true := by
  by_contra hl
  have := ((h.entered path r hr).unlaunched (by simpa using hl)).2
  rw [hk] at this
  cases this

end Tracked

/-- A record stays what it is while the ledger grows around it. -/
theorem Entered.move {start : ContextRuntime} {pending pending' : List Nat} {ctx ctx' : Ctx}
    {path : NodePath} {r : RunRecord} (h : Entered start pending ctx path r)
    (hgeneration : ctx.runtime.generation ≤ ctx'.runtime.generation)
    (hsuperseded : ∀ c, ctx'.supersededRefholds.lookup r.generation = some c →
      ctx.supersededRefholds.lookup r.generation = some c)
    (hpending : r.generation ∈ pending' → r.generation ∈ pending) :
    Entered start pending' ctx' path r where
  placed := h.placed
  bounded := h.bounded.trans hgeneration
  descends := h.descends
  unlaunched := h.unlaunched
  awaited hg := h.awaited (hpending hg)
  held c hc := h.held c (hsuperseded c hc)

/-! ## Changes beside the ledger -/

/-- The ledger stays while something beside it changes, and no message is added. -/
theorem Tracked.beside {start : ContextRuntime} {issued issued' pending pending' : List Nat}
    {ctx ctx' : Ctx} (h : Tracked start issued pending ctx) (hruntime : ctx'.runtime = ctx.runtime)
    (hsuperseded : ctx'.supersededRefholds = ctx.supersededRefholds)
    (hkind : ∀ path r, ctx.runtime.currentRuns.lookup path = some r → r.launched = true →
      (ctx.node? path).map Node.isCell = some false →
        (ctx'.node? path).map Node.isCell = some false)
    (hissued : List.Sublist issued' issued) (hpending : List.Sublist pending' pending) :
    Tracked start issued' pending' ctx' where
  entered path r hr := by
    rw [hruntime] at hr
    refine (h.entered path r hr).move (by rw [hruntime]) ?_ fun hg => hpending.subset hg
    rw [hsuperseded]
    exact fun _ hc => hc
  distinct := by rw [hruntime]; exact h.distinct
  apart := by rw [hruntime]; exact h.apart
  capped := by rw [hruntime]; exact h.capped
  queued := by rw [hruntime]; exact h.queued
  current := by rw [hruntime]; exact h.current
  kind path r hr hl := by
    rw [hruntime] at hr
    exact hkind path r hr hl (h.kind path r hr hl)
  generation := by rw [hruntime]; exact h.generation
  issuedNodup := h.issuedNodup.sublist hissued
  pendingNodup := h.pendingNodup.sublist hpending
  known g hg := by
    rw [hruntime]
    rw [hsuperseded] at hg
    refine h.known g ?_
    rcases hg with hg | hg | hg
    · exact Or.inl (hissued.subset hg)
    · exact Or.inr (Or.inl (hpending.subset hg))
    · exact Or.inr (Or.inr hg)

theorem Ctx.HoldsQueued.of_eq {ctx ctx' : Ctx} (h : ctx.HoldsQueued)
    (hruntime : ctx'.runtime = ctx.runtime)
    (hsuperseded : ctx'.supersededRefholds = ctx.supersededRefholds) : ctx'.HoldsQueued := by
  unfold Ctx.HoldsQueued
  rw [hruntime, hsuperseded]
  exact h

/-! ## Records that are dropped -/

/-- Records are dropped, and nothing else is changed in the ledger. -/
structure Shrinks (rt rt' : ContextRuntime) : Prop where
  generation : rt'.generation = rt.generation
  current : ∀ path r, rt'.currentRuns.lookup path = some r → rt.currentRuns.lookup path = some r
  queue : ∀ path, List.Sublist (rt'.queue path) (rt.queue path)

theorem Shrinks.records {rt rt' : ContextRuntime} (h : Shrinks rt rt') (path : NodePath) :
    List.Sublist (rt'.recordsAt path) (rt.recordsAt path) := by
  refine List.Sublist.append ?_ (h.queue path)
  cases hc : rt'.currentRuns.lookup path with
  | none => exact List.nil_sublist _
  | some r => rw [h.current path r hc]

theorem Tracked.shrinks {start : ContextRuntime} {issued issued' pending pending' : List Nat}
    {ctx ctx' : Ctx} (h : Tracked start issued pending ctx)
    (hs : Shrinks ctx.runtime ctx'.runtime)
    (hsuperseded : ∀ g c, ctx'.supersededRefholds.lookup g = some c →
      ctx.supersededRefholds.lookup g = some c)
    (hkind : ∀ path r, ctx'.runtime.currentRuns.lookup path = some r →
      (ctx'.node? path).map Node.isCell = (ctx.node? path).map Node.isCell)
    (hissued : List.Sublist issued' issued) (hpending : List.Sublist pending' pending) :
    Tracked start issued' pending' ctx' where
  entered path r hr := (h.entered path r ((hs.records path).subset hr)).move hs.generation.ge
    (hsuperseded r.generation) fun hg => hpending.subset hg
  distinct path := (h.distinct path).sublist ((hs.records path).map _)
  apart p q r hr s hs' := h.apart p q r ((hs.records p).subset hr) s ((hs.records q).subset hs')
  capped path := (hs.queue path).length_le.trans (h.capped path)
  queued path r hr := h.queued path r ((hs.queue path).subset hr)
  current path r hr := h.current path r (hs.current path r hr)
  kind path r hr hl := by
    rw [hkind path r hr]
    exact h.kind path r (hs.current path r hr) hl
  generation := by rw [hs.generation]; exact h.generation
  issuedNodup := h.issuedNodup.sublist hissued
  pendingNodup := h.pendingNodup.sublist hpending
  known g hg := by
    rw [hs.generation]
    refine h.known g ?_
    rcases hg with hg | hg | hg
    · exact Or.inl (hissued.subset hg)
    · exact Or.inr (Or.inl (hpending.subset hg))
    · obtain ⟨c, hc⟩ := Option.isSome_iff_exists.mp hg
      exact Or.inr (Or.inr (by rw [hsuperseded g c hc]; rfl))

/-! ## Changes at one node -/

/-- The records of one node are replaced. -/
structure Replaces (path : NodePath) (rt rt' : ContextRuntime) (current : Option RunRecord)
    (queue : List RunRecord) : Prop where
  current : rt'.currentRuns.lookup path = current
  queue : rt'.queue path = queue
  currentElse : ∀ q, q ≠ path → rt'.currentRuns.lookup q = rt.currentRuns.lookup q
  queueElse : ∀ q, q ≠ path → rt'.queue q = rt.queue q
  generation : rt.generation ≤ rt'.generation

/-- A generation that a record of a node may have: that of one of its records, or a new one. -/
def ContextRuntime.Open (rt : ContextRuntime) (path : NodePath) (g : Nat) : Prop :=
  (∃ r ∈ rt.recordsAt path, r.generation = g) ∨ rt.generation < g

namespace Replaces

variable {path : NodePath} {rt rt' : ContextRuntime} {current : Option RunRecord}
  {queue : List RunRecord}

theorem recordsAt_self (h : Replaces path rt rt' current queue) :
    rt'.recordsAt path = current.toList ++ queue := by
  unfold ContextRuntime.recordsAt
  rw [h.current, h.queue]

theorem recordsAt_ne (h : Replaces path rt rt' current queue) {q : NodePath} (hq : q ≠ path) :
    rt'.recordsAt q = rt.recordsAt q := by
  unfold ContextRuntime.recordsAt
  rw [h.currentElse q hq, h.queueElse q hq]

/-- A record is one of the new ones, or was there before. -/
theorem mem_recordsAt (h : Replaces path rt rt' current queue) {q : NodePath} {r : RunRecord}
    (hr : r ∈ rt'.recordsAt q) :
    (q = path ∧ (current = some r ∨ r ∈ queue)) ∨ r ∈ rt.recordsAt q := by
  by_cases hq : q = path
  · subst hq
    rw [h.recordsAt_self, List.mem_append, Option.mem_toList] at hr
    exact Or.inl ⟨rfl, hr⟩
  · exact Or.inr (h.recordsAt_ne hq ▸ hr)

end Replaces

/-- An open generation is not one of another node. -/
theorem Tracked.not_open {start : ContextRuntime} {issued pending : List Nat} {ctx : Ctx}
    (h : Tracked start issued pending ctx) {path q : NodePath} {r : RunRecord}
    (hr : r ∈ ctx.runtime.recordsAt q) (hq : q ≠ path) :
    ¬ ctx.runtime.Open path r.generation := by
  rintro (⟨s, hs, he⟩ | hlt)
  · exact hq (h.apart q path r hr s hs he.symm)
  · exact absurd (h.entered q r hr).bounded (by omega)

/-- The records of one node are replaced by records that are in order. -/
theorem Tracked.replace {start : ContextRuntime} {issued issued' pending pending' : List Nat}
    {ctx ctx' : Ctx} {path : NodePath} {current : Option RunRecord} {queue : List RunRecord}
    (h : Tracked start issued pending ctx)
    (hr : Replaces path ctx.runtime ctx'.runtime current queue)
    (hentered : ∀ r ∈ current.toList ++ queue, Entered start pending' ctx' path r)
    (hopen : ∀ r ∈ current.toList ++ queue, ctx.runtime.Open path r.generation)
    (hdistinct : ((current.toList ++ queue).map RunRecord.generation).Nodup)
    (hcapped : queue.length ≤ supersededCap) (hqueued : ∀ r ∈ queue, r.phase = .superseded)
    (hcurrent : ∀ r, current = some r → r.phase = .running ∨ r.phase = .completed)
    (hkind : ∀ q, (ctx'.node? q).map Node.isCell = (ctx.node? q).map Node.isCell)
    (hlaunched : ∀ r, current = some r → r.launched = true →
      (ctx'.node? path).map Node.isCell = some false)
    (hsuperseded : ctx'.supersededRefholds = ctx.supersededRefholds)
    (hissued : issued'.Nodup) (hnodup : pending'.Nodup)
    (hknown : ∀ g, g ∈ issued' ∨ g ∈ pending' → g ≤ ctx'.runtime.generation)
    (hpending : ∀ g ∈ pending', g ∈ pending ∨ ctx.runtime.Open path g) :
    Tracked start issued' pending' ctx' where
  entered q r hq := by
    by_cases he : q = path
    · subst he
      rw [hr.recordsAt_self] at hq
      exact hentered r hq
    · rw [hr.recordsAt_ne he] at hq
      refine (h.entered q r hq).move hr.generation (fun c hc => by rwa [hsuperseded] at hc) ?_
      intro hg
      rcases hpending _ hg with hg | hg
      · exact hg
      · exact absurd hg (h.not_open hq he)
  distinct q := by
    by_cases he : q = path
    · subst he
      rw [hr.recordsAt_self]
      exact hdistinct
    · rw [hr.recordsAt_ne he]
      exact h.distinct q
  apart p q r hp s hq he := by
    by_cases h1 : p = path <;> by_cases h2 : q = path
    · rw [h1, h2]
    · subst h1
      rw [hr.recordsAt_self] at hp
      rw [hr.recordsAt_ne h2] at hq
      exact absurd (he ▸ hopen r hp) (h.not_open hq h2)
    · subst h2
      rw [hr.recordsAt_ne h1] at hp
      rw [hr.recordsAt_self] at hq
      exact absurd (he ▸ hopen s hq) (h.not_open hp h1)
    · rw [hr.recordsAt_ne h1] at hp
      rw [hr.recordsAt_ne h2] at hq
      exact h.apart p q r hp s hq he
  capped q := by
    by_cases he : q = path
    · rw [he, hr.queue]; exact hcapped
    · rw [hr.queueElse q he]; exact h.capped q
  queued q := by
    by_cases he : q = path
    · rw [he, hr.queue]; exact hqueued
    · rw [hr.queueElse q he]; exact h.queued q
  current q r hq := by
    by_cases he : q = path
    · rw [he, hr.current] at hq; exact hcurrent r hq
    · rw [hr.currentElse q he] at hq; exact h.current q r hq
  kind q r hq hl := by
    by_cases he : q = path
    · rw [he, hr.current] at hq
      rw [he]
      exact hlaunched r hq hl
    · rw [hr.currentElse q he] at hq
      rw [hkind q]
      exact h.kind q r hq hl
  generation := h.generation.trans hr.generation
  issuedNodup := hissued
  pendingNodup := hnodup
  known g hg := by
    rw [hsuperseded] at hg
    rcases hg with hg | hg | hg
    · exact hknown g (Or.inl hg)
    · exact hknown g (Or.inr hg)
    · exact (h.known g (Or.inr (Or.inr hg))).trans hr.generation

end SeamlessWorkflow
