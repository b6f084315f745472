import SeamlessWorkflow.Proofs.LedgerMoves

/-!
# The run ledger of every reachable Context

Between two turns the references of superseded runs are those of the results in the queues. One
thing breaks this: a namespace copy that puts a cell over a transformer whose current run has been
launched. When the copied value is the one that the run was started with, the cell takes the run of
the transformer for its own and writes its value into it; the run then delivers a second time.
-/

namespace SeamlessWorkflow

open Program

/-! ## The references of superseded runs -/

theorem mem_supersededResults {rt : ContextRuntime} {g : Nat} {c : Checksum} :
    (g, c) ∈ Ctx.supersededResults rt ↔ ∃ path, ∃ r ∈ rt.queue path,
      r.phase ≠ .cancelled ∧ r.generation = g ∧ r.resultChecksum = some c := by
  unfold Ctx.supersededResults
  rw [List.mem_flatMap]
  constructor
  · rintro ⟨⟨path, queue⟩, he, hm⟩
    obtain ⟨r, hr, hrc⟩ := List.mem_filterMap.mp hm
    have hq : rt.queue path = queue := by
      unfold ContextRuntime.queue
      rw [AList.mem_lookup_iff.mpr he]
      rfl
    by_cases hp : r.phase = .cancelled
    · rw [if_pos hp] at hrc
      cases hrc
    · rw [if_neg hp] at hrc
      obtain ⟨c', hc', he⟩ := Option.map_eq_some_iff.mp hrc
      obtain ⟨rfl, rfl⟩ := Prod.mk.injEq .. |>.mp he
      exact ⟨path, r, hq ▸ hr, hp, rfl, hc'⟩
  · rintro ⟨path, r, hr, hp, rfl, hc⟩
    unfold ContextRuntime.queue at hr
    cases hq : rt.supersededRuns.lookup path with
    | none => rw [hq] at hr; cases hr
    | some queue =>
      rw [hq] at hr
      refine ⟨⟨path, queue⟩, AList.mem_lookup_iff.mp hq, List.mem_filterMap.mpr ⟨r, hr, ?_⟩⟩
      rw [if_neg hp, hc]
      rfl

/-- Only the references and the table change. -/
structure TableOnly (ctx ctx' : Ctx) : Prop where
  runtime : ctx'.runtime = ctx.runtime
  graph : ctx'.graph = ctx.graph
  outcome : ctx'.outcome = ctx.outcome

theorem TableOnly.effects {ctx ctx' : Ctx} (h : TableOnly ctx ctx') : ctx'.effects = ctx.effects :=
  congrArg Prod.fst h.outcome

theorem tableOnly_foldl {α : Type} {f : Ctx → α → Ctx} (h : ∀ ctx a, TableOnly ctx (f ctx a))
    (as : List α) (ctx : Ctx) : TableOnly ctx (as.foldl f ctx) := by
  induction as generalizing ctx with
  | nil => exact ⟨rfl, rfl, rfl⟩
  | cons a as ih =>
    have h1 := h ctx a
    have h2 := ih (f ctx a)
    exact ⟨h2.runtime.trans h1.runtime, h2.graph.trans h1.graph, h2.outcome.trans h1.outcome⟩

theorem tableOnly_sync (ctx : Ctx) : TableOnly ctx ctx.syncSupersededRefholds := by
  unfold Ctx.syncSupersededRefholds
  dsimp only
  set gone := ctx.supersededRefholds.entries.filter fun entry =>
    !(Ctx.supersededResults ctx.runtime).any fun item => decide (item.1 = entry.1)
  have h1 := tableOnly_foldl (f := fun ctx (entry : (_ : Nat) × Checksum) =>
    { ctx.decref entry.2 with supersededRefholds := ctx.supersededRefholds.erase entry.1 })
    (fun _ _ => ⟨rfl, rfl, rfl⟩) gone ctx
  refine ⟨(tableOnly_foldl ?_ _ _).runtime.trans h1.runtime,
    (tableOnly_foldl ?_ _ _).graph.trans h1.graph,
    (tableOnly_foldl ?_ _ _).outcome.trans h1.outcome⟩
  all_goals
    intro ctx item
    split <;> exact ⟨rfl, rfl, rfl⟩

/-- Releasing some entries takes their keys out of the table. -/
theorem lookup_foldl_release (gone : List ((_ : Nat) × Checksum)) (g : Nat) (ctx : Ctx) :
    (gone.foldl (fun ctx entry =>
        { ctx.decref entry.2 with supersededRefholds := ctx.supersededRefholds.erase entry.1 })
      ctx).supersededRefholds.lookup g =
        if g ∈ gone.map Sigma.fst then none else ctx.supersededRefholds.lookup g := by
  induction gone generalizing ctx with
  | nil => simp
  | cons entry gone ih =>
    rw [List.foldl_cons, ih, List.map_cons]
    by_cases hg : g = entry.1
    · subst hg
      simp [AList.lookup_erase]
    · rw [AList.lookup_erase_ne hg]
      simp only [List.mem_cons, hg, false_or]

/-- Acquiring some results leaves what is in the table already. -/
theorem lookup_foldl_acquire (active : List (Nat × Checksum)) (g : Nat) (ctx : Ctx) :
    (active.foldl (fun ctx item =>
        if (ctx.supersededRefholds.lookup item.1).isSome then ctx
        else { ctx.incref item.2 with
          supersededRefholds := ctx.supersededRefholds.insert item.1 item.2 })
      ctx).supersededRefholds.lookup g =
        (ctx.supersededRefholds.lookup g).or (active.lookup g) := by
  induction active generalizing ctx with
  | nil => simp
  | cons item active ih =>
    obtain ⟨k, c⟩ := item
    rw [List.foldl_cons, ih, List.lookup_cons]
    by_cases hg : g = k
    · subst hg
      cases hl : ctx.supersededRefholds.lookup g with
      | some c' => simp [hl]
      | none => simp
    · have hb : (g == k) = false := by simpa using hg
      rw [hb]
      split
      · rfl
      · rw [AList.lookup_insert_ne hg]

section Sync

variable {start : ContextRuntime} {issued pending : List Nat} {ctx : Ctx}

/-- The active results of the queues, by generation. -/
theorem Tracked.lookup_active (h : Tracked start issued pending ctx) {g : Nat} {c : Checksum} :
    (Ctx.supersededResults ctx.runtime).lookup g = some c ↔
      ∃ path, ∃ r ∈ ctx.runtime.queue path, r.generation = g ∧ r.resultChecksum = some c := by
  constructor
  · intro hl
    obtain ⟨l₁, l₂, he, -⟩ := List.lookup_eq_some_iff.mp hl
    have hm : (g, c) ∈ Ctx.supersededResults ctx.runtime := by
      rw [he]
      simp
    obtain ⟨path, r, hr, -, hg, hc⟩ := mem_supersededResults.mp hm
    exact ⟨path, r, hr, hg, hc⟩
  · rintro ⟨path, r, hr, rfl, hc⟩
    have hphase : r.phase ≠ .cancelled := by
      rw [h.queued path r hr]
      decide
    have hm := mem_supersededResults.mpr ⟨path, r, hr, hphase, rfl, hc⟩
    cases hl : (Ctx.supersededResults ctx.runtime).lookup r.generation with
    | none =>
      have := List.lookup_eq_none_iff.mp hl _ hm
      simp at this
    | some c' =>
      obtain ⟨l₁, l₂, he, -⟩ := List.lookup_eq_some_iff.mp hl
      obtain ⟨path', r', hr', -, hg, hc'⟩ := mem_supersededResults.mp
        (show (r.generation, c') ∈ Ctx.supersededResults ctx.runtime by rw [he]; simp)
      obtain ⟨-, rfl⟩ := h.unique (ContextRuntime.mem_recordsAt.mpr (Or.inr hr'))
        (ContextRuntime.mem_recordsAt.mpr (Or.inr hr)) hg
      rw [← hc, hc']

/-- After the sync the table holds the results of the queues, each once. -/
theorem Tracked.lookup_sync (h : Tracked start issued pending ctx) (g : Nat) :
    ctx.syncSupersededRefholds.supersededRefholds.lookup g =
      (Ctx.supersededResults ctx.runtime).lookup g := by
  unfold Ctx.syncSupersededRefholds
  dsimp only
  rw [lookup_foldl_acquire, lookup_foldl_release]
  cases ha : (Ctx.supersededResults ctx.runtime).lookup g with
  | none =>
    rw [Option.or_none]
    split
    · rfl
    · rename_i hgone
      cases hl : ctx.supersededRefholds.lookup g with
      | none => rfl
      | some c =>
        have hm := AList.mem_lookup_iff.mp hl
        refine absurd (List.mem_map_of_mem (List.mem_filter.mpr ⟨hm, ?_⟩)) hgone
        · have := List.lookup_eq_none_iff.mp ha
          simp only [Bool.not_eq_true', List.any_eq_false, decide_eq_true_eq]
          intro item hm he
          have := this item hm
          simp [he] at this
  | some c =>
    split
    · rfl
    · cases hl : ctx.supersededRefholds.lookup g with
      | none => rfl
      | some c' =>
        -- the reference that is kept is one for the same result
        obtain ⟨path, r, hr, rfl, hc⟩ := h.lookup_active.mp ha
        have hr := ContextRuntime.mem_recordsAt.mpr (Or.inr hr)
        rw [(h.entered path r hr).held c' hl c hc]
        rfl

theorem Tracked.holdsQueued_sync (h : Tracked start issued pending ctx) :
    ctx.syncSupersededRefholds.HoldsQueued := by
  intro g c
  rw [h.lookup_sync, (tableOnly_sync ctx).runtime]
  exact h.lookup_active

end Sync

/-! ## Turns -/

section InTurn

variable {start : ContextRuntime} {handed : Handed} {ctx ctx' : Ctx}

/-- The ledger between two operations of a turn. -/
def BetweenSteps (start : ContextRuntime) (handed : Handed) (ctx : Ctx) : Prop :=
  InTurn start handed ctx ∧ ctx.HoldsQueued

theorem InTurn.sync (h : InTurn start handed ctx) :
    BetweenSteps start handed ctx.syncSupersededRefholds := by
  have ht := tableOnly_sync ctx
  have hq := h.holdsQueued_sync
  have hissued : handed.issuedBy ctx.syncSupersededRefholds = handed.issuedBy ctx := by
    unfold Handed.issuedBy Ctx.launchedRuns
    rw [ht.effects]
  have hpending : handed.pendingBy ctx.syncSupersededRefholds = handed.pendingBy ctx := by
    unfold Handed.pendingBy Ctx.launchedRuns Ctx.postedRuns
    rw [ht.effects]
  refine ⟨?_, hq⟩
  unfold InTurn
  rw [hissued, hpending]
  have hqueued : ∀ g c, ctx.syncSupersededRefholds.supersededRefholds.lookup g = some c →
      ∃ path, ∃ r ∈ ctx.runtime.recordsAt path, r.generation = g ∧ r.resultChecksum = some c := by
    intro g c hc
    obtain ⟨path, r, hr, hg, hc⟩ := (hq g c).mp hc
    rw [ht.runtime] at hr
    exact ⟨path, r, ContextRuntime.mem_recordsAt.mpr (Or.inr hr), hg, hc⟩
  refine ⟨fun path r hr => ?_, ?_, ?_, ?_, ?_, ?_, fun path r hr hl => ?_, ?_, h.issuedNodup,
    h.pendingNodup, fun g hg => ?_⟩
  · rw [ht.runtime] at hr
    have he := h.entered path r hr
    refine ⟨he.placed, by rw [ht.runtime]; exact he.bounded, he.descends, he.unlaunched, he.awaited,
      fun c hc c' hc' => ?_⟩
    obtain ⟨p, s, hs, hg, hsc⟩ := hqueued _ c hc
    obtain ⟨-, rfl⟩ := h.unique hs hr hg
    rw [hc'] at hsc
    exact Option.some.inj hsc
  · rw [ht.runtime]; exact h.distinct
  · rw [ht.runtime]; exact h.apart
  · rw [ht.runtime]; exact h.capped
  · rw [ht.runtime]; exact h.queued
  · rw [ht.runtime]; exact h.current
  · rw [ht.runtime] at hr
    unfold Ctx.node?
    rw [ht.graph]
    exact h.kind path r hr hl
  · rw [ht.runtime]; exact h.generation
  · rw [ht.runtime]
    rcases hg with hg | hg | hg
    · exact h.known g (Or.inl hg)
    · exact h.known g (Or.inr (Or.inl hg))
    · obtain ⟨c, hc⟩ := Option.isSome_iff_exists.mp hg
      obtain ⟨path, r, hr, rfl, -⟩ := hqueued g c hc
      exact (h.entered path r hr).bounded

theorem InTurn.deriveGraph (h : InTurn start handed ctx) (env : Substrate)
    (sorted : List NodePath) : BetweenSteps start handed (ctx.deriveGraph env sorted) := by
  have hnodes : ∀ (paths : List NodePath) (ctx : Ctx), InTurn start handed ctx →
      InTurn start handed (paths.foldl (fun ctx path => ctx.deriveNode env path) ctx) := by
    intro paths
    induction paths with
    | nil => exact fun _ h => h
    | cons path paths ih => exact fun ctx h => ih _ (h.deriveNode env path)
  have hruns : ∀ (paths : List NodePath) (ctx : Ctx), InTurn start handed ctx →
      InTurn start handed (paths.foldl (fun ctx path => ctx.updateRuntime path) ctx) := by
    intro paths
    induction paths with
    | nil => exact fun _ h => h
    | cons path paths ih => exact fun ctx h => ih _ (h.updateRuntime path)
  have hsettle : ∀ ctx : Ctx, BetweenSteps start handed ctx →
      BetweenSteps start handed { ctx with settled := true } := fun ctx h =>
    ⟨h.1.beside ⟨rfl, rfl, fun _ => rfl, .refl _, .refl _, .of_eq rfl⟩, h.2⟩
  unfold Ctx.deriveGraph
  dsimp only
  refine hsettle _ (InTurn.sync (hruns sorted _ ?_))
  exact InTurn.beside (hnodes _ ctx h) (((frame_syncEdgePinRefholds _).trans
    (frame_syncAnonymousCurrentRefholds _)).beside.trans (beside_pruneFacts _))

/-! ### Messages of runs -/

/-- What a message makes of a record. -/
structure Delivers (f : RunRecord → RunRecord) : Prop where
  same : ∀ r, SameRun r (f r)
  queued : ∀ r, r.phase = .superseded → (f r).phase = .superseded
  current : ∀ r, r.phase = .running ∨ r.phase = .completed →
    (f r).phase = .running ∨ (f r).phase = .completed

theorem delivers_started (identity : Checksum) :
    Delivers fun record => { record with identityChecksum := some identity } :=
  ⟨fun _ => ⟨rfl, rfl, rfl, rfl⟩, fun _ h => h, fun _ h => h⟩

theorem delivers_deliver (identity result : Option Checksum) (error : Option Error) :
    Delivers fun record => record.deliver identity result error := by
  refine ⟨fun _ => ⟨rfl, rfl, rfl, rfl⟩, fun r h => ?_, fun r h => ?_⟩
  · unfold RunRecord.deliver
    rw [if_pos h]
  · unfold RunRecord.deliver
    rcases h with h | h <;> simp [h]

/-- A record that is awaited and takes a message. -/
theorem BetweenSteps.entered (h : BetweenSteps start handed ctx) {f : RunRecord → RunRecord}
    (hf : Delivers f) {path : NodePath} {r : RunRecord} (hr : r ∈ ctx.runtime.recordsAt path)
    (ha : r.Awaited) (hp : r.generation ∈ handed.pendingBy ctx → (f r).Awaited) :
    Entered start (handed.pendingBy ctx) ctx path (f r) := by
  have he := h.1.entered path r hr
  have hs := hf.same r
  refine ⟨hs.nodePath.trans he.placed, by rw [hs.generation]; exact he.bounded, ?_, fun hl => ?_,
    fun hg => ?_, fun c hc => ?_⟩
  · rw [hs.generation]
    exact he.descends.imp id fun ⟨r₀, hr₀, hs₀⟩ => ⟨r₀, hr₀, hs₀.trans hs⟩
  · rw [hs.launched, ha.1] at hl
    cases hl
  · rw [hs.generation] at hg
    exact hp hg
  · -- no reference is held for a run that has not delivered
    rw [hs.generation] at hc
    obtain ⟨p, s, hs', hg, hsc⟩ := (h.2 _ c).mp hc
    obtain ⟨-, rfl⟩ := h.1.unique (ContextRuntime.mem_recordsAt.mpr (Or.inr hs')) hr hg
    rw [ha.2.1] at hsc
    cases hsc

theorem BetweenSteps.updateRun (h : BetweenSteps start handed ctx) {f : RunRecord → RunRecord}
    (hf : Delivers f) {path : NodePath} {generation : Nat}
    (hd : ∀ r ∈ ctx.runtime.recordsAt path, r.generation = generation →
      r.Awaited ∧ (generation ∈ handed.pendingBy ctx → (f r).Awaited)) :
    InTurn start handed (ctx.updateRun path generation f) := by
  have hentered : ∀ r ∈ ctx.runtime.recordsAt path, r.generation = generation →
      Entered start (handed.pendingBy ctx) ctx path (f r) := by
    rintro r hr rfl
    exact h.entered hf hr (hd r hr rfl).1 (hd r hr rfl).2
  have hcurrent : ∀ r, ctx.runtime.currentRuns.lookup path = some r →
      r ∈ ctx.runtime.recordsAt path := fun r hr => ContextRuntime.mem_recordsAt.mpr (Or.inl hr)
  have hqueue : ∀ r ∈ ctx.runtime.queue path, r ∈ ctx.runtime.recordsAt path := fun r hr =>
    ContextRuntime.mem_recordsAt.mpr (Or.inr hr)
  unfold Ctx.updateRun
  cases hc : (ctx.runtime.currentRuns.lookup path).filter
      fun r => decide (r.generation = generation) with
  | some record =>
    obtain ⟨hlookup, hg⟩ := Option.filter_eq_some_iff.mp hc
    have hg := of_decide_eq_true hg
    have he : ctx.runtime.recordsAt path = record :: ctx.runtime.queue path := by
      unfold ContextRuntime.recordsAt
      rw [hlookup]
      rfl
    refine InTurn.rearrange h.1 (replaces_setCurrentRun path (f record) ctx) (fun r hr => ?_)
      (fun r hr => ?_) ?_ (h.1.capped path) (h.1.queued path) (fun r hr => ?_) (fun r hr hl => ?_)
      (fun _ => rfl) rfl (.refl _) (.refl _)
    · simp only [Option.toList_some, List.singleton_append, List.mem_cons] at hr
      rcases hr with rfl | hr
      · exact hentered record (hcurrent record hlookup) hg
      · exact h.1.entered path r (hqueue r hr)
    · simp only [Option.toList_some, List.singleton_append, List.mem_cons] at hr
      rcases hr with rfl | hr
      · exact ⟨record, hcurrent record hlookup, (hf.same record).generation.symm⟩
      · exact ⟨r, hqueue r hr, rfl⟩
    · have hdistinct := h.1.distinct path
      rw [he] at hdistinct
      simpa [(hf.same record).generation] using hdistinct
    · obtain rfl := Option.some.inj hr
      exact hf.current record (h.1.current path record hlookup)
    · obtain rfl := Option.some.inj hr
      rw [(hf.same record).launched] at hl
      exact h.1.kind path record hlookup hl
  | none =>
    cases hq : ctx.runtime.supersededRuns.lookup path with
    | none => exact h.1
    | some queue =>
      have hqe : ctx.runtime.queue path = queue := by
        unfold ContextRuntime.queue
        rw [hq]
        rfl
      subst hqe
      dsimp only
      set change : RunRecord → RunRecord := fun record =>
        if record.generation = generation ∧ record.phase ≠ .cancelled then f record else record
      have hgeneration : ∀ r, (change r).generation = r.generation := by
        intro r
        show (if _ then f r else r).generation = _
        split
        · exact (hf.same r).generation
        · rfl
      have hr : Replaces path ctx.runtime { ctx.runtime with
          supersededRuns := ctx.runtime.supersededRuns.insert path
            ((ctx.runtime.queue path).map change) }
          (ctx.runtime.currentRuns.lookup path) ((ctx.runtime.queue path).map change) := by
        refine ⟨rfl, ?_, fun _ _ => rfl, fun q hne => ?_, le_rfl⟩
        · exact (ContextRuntime.queue_insert ctx.runtime path path _).trans (if_pos rfl)
        · exact (ContextRuntime.queue_insert ctx.runtime path q _).trans (if_neg hne)
      have hmem : ∀ r ∈ (ctx.runtime.currentRuns.lookup path).toList ++
          (ctx.runtime.queue path).map change, r ∈ ctx.runtime.recordsAt path ∨
            ∃ r₀ ∈ ctx.runtime.queue path, change r₀ = r := by
        intro r hr
        rcases List.mem_append.mp hr with hr | hr
        · exact Or.inl (hcurrent r (by simpa using hr))
        · exact Or.inr (List.mem_map.mp hr)
      refine InTurn.rearrange h.1 hr (fun r hr => ?_) (fun r hr => ?_) ?_ ?_ (fun r hr => ?_)
        (h.1.current path) (h.1.kind path) (fun _ => rfl) rfl (.refl _) (.refl _)
      · rcases hmem r hr with hr | ⟨r₀, hr₀, rfl⟩
        · exact h.1.entered path r hr
        · show Entered start _ ctx path (if _ then f r₀ else r₀)
          split
          · rename_i hg
            exact hentered r₀ (hqueue r₀ hr₀) hg.1
          · exact h.1.entered path r₀ (hqueue r₀ hr₀)
      · rcases hmem r hr with hr | ⟨r₀, hr₀, rfl⟩
        · exact ⟨r, hr, rfl⟩
        · exact ⟨r₀, hqueue r₀ hr₀, (hgeneration r₀).symm⟩
      · have hdistinct := h.1.distinct path
        unfold ContextRuntime.recordsAt at hdistinct
        rw [List.map_append] at hdistinct ⊢
        rwa [List.map_map, show RunRecord.generation ∘ change = RunRecord.generation from
          funext hgeneration]
      · rw [List.length_map]
        exact h.1.capped path
      · obtain ⟨r₀, hr₀, rfl⟩ := List.mem_map.mp hr
        show (if _ then f r₀ else r₀).phase = _
        split
        · exact hf.queued r₀ (h.1.queued path r₀ hr₀)
        · exact h.1.queued path r₀ hr₀

end InTurn

end SeamlessWorkflow
