import SeamlessWorkflow.Proofs.Ledger

/-!
# The run ledger within a turn

What derivation does to the records of one node: it supersedes, launches, reinstates and publishes
runs. Each of these keeps `InTurn`, the invariant of the ledger while a turn collects its effects.
-/

namespace SeamlessWorkflow

open Program

/-- The generations handed out before a turn: of all runs so far, of the runs that have not
finished, and of the messages that have not arrived. -/
structure Handed where
  issued : List Nat
  outstanding : List Nat
  posted : List Nat

/-- The generations of the runs that a turn has launched so far. -/
def Ctx.launchedRuns (ctx : Ctx) : List Nat :=
  (Effect.launches ctx.effects).map LaunchedRun.generation

/-- The generations of the messages that a turn has posted so far. -/
def Ctx.postedRuns (ctx : Ctx) : List Nat := (Effect.posts ctx.effects).map Finished.generation

/-- The generations of the runs handed out up to now. -/
def Handed.issuedBy (handed : Handed) (ctx : Ctx) : List Nat := handed.issued ++ ctx.launchedRuns

/-- The generations whose message is still to come. -/
def Handed.pendingBy (handed : Handed) (ctx : Ctx) : List Nat :=
  (handed.outstanding ++ ctx.launchedRuns) ++ (handed.posted ++ ctx.postedRuns)

/-- The ledger in the middle of a turn. -/
def InTurn (start : ContextRuntime) (handed : Handed) (ctx : Ctx) : Prop :=
  Tracked start (handed.issuedBy ctx) (handed.pendingBy ctx) ctx

/-! ## What does not concern the ledger -/

/-- A change that leaves the records, the kinds of the nodes and the held references alone, and
posts nothing. -/
structure Beside (ctx ctx' : Ctx) : Prop where
  runtime : ctx'.runtime = ctx.runtime
  superseded : ctx'.supersededRefholds = ctx.supersededRefholds
  kind : ∀ path, (ctx'.node? path).map Node.isCell = (ctx.node? path).map Node.isCell
  launches : List.Sublist (Effect.launches ctx'.effects) (Effect.launches ctx.effects)
  posts : List.Sublist (Effect.posts ctx'.effects) (Effect.posts ctx.effects)
  handsOn : HandsOn ctx ctx'

theorem Frame.beside {ctx ctx' : Ctx} (h : Frame ctx ctx') : Beside ctx ctx' :=
  ⟨h.runtime, h.superseded, h.kind, h.launches, h.posts, h.handsOn⟩

namespace Beside

theorem refl (ctx : Ctx) : Beside ctx ctx := (Frame.refl ctx).beside

theorem trans {a b c : Ctx} (h : Beside a b) (h' : Beside b c) : Beside a c :=
  ⟨h'.runtime.trans h.runtime, h'.superseded.trans h.superseded,
    fun path => (h'.kind path).trans (h.kind path), h'.launches.trans h.launches,
    h'.posts.trans h.posts, h.handsOn.trans h'.handsOn⟩

theorem foldl {α : Type} {f : Ctx → α → Ctx} (h : ∀ ctx a, Beside ctx (f ctx a)) (as : List α)
    (ctx : Ctx) : Beside ctx (as.foldl f ctx) := by
  induction as generalizing ctx with
  | nil => exact .refl ctx
  | cons a as ih => exact (h ctx a).trans (ih (f ctx a))

end Beside

/-- Derivation changes no kind. -/
theorem kind_of_durable {ctx ctx' : Ctx} (h : ctx'.durable = ctx.durable) (path : NodePath) :
    (ctx'.node? path).map Node.isCell = (ctx.node? path).map Node.isCell := by
  have hnode := congrArg (fun d => (Durable.node d path).map Node.isCell) h
  simp only [Ctx.durable, Option.map_map] at hnode
  have hcell : Node.isCell ∘ Node.durable = Node.isCell := funext Node.durable_isCell
  rwa [hcell] at hnode

theorem beside_noteFact (key : FactKey) (ctx : Ctx) : Beside ctx (ctx.noteFact key) := by
  unfold Ctx.noteFact
  dsimp only
  split
  · exact ⟨rfl, rfl, fun _ => rfl, .refl _, .refl _, .of_eq rfl⟩
  · refine ⟨rfl, rfl, fun _ => rfl, ?_, ?_, .addEffect _ _⟩
    · simp [Ctx.addEffect, Effect.launches]
    · simp [Ctx.addEffect, Effect.posts]

theorem beside_noteAnonymous (env : Substrate) (entry : Recipe × Checksum) (ctx : Ctx) :
    Beside ctx (ctx.noteAnonymous env entry) :=
  ⟨rfl, rfl, kind_of_durable (Ctx.durable_noteAnonymous env entry ctx), .refl _, .refl _,
    .of_eq rfl⟩

theorem beside_noteEdgeCode (path : NodePath) (code : Option Checksum) (ctx : Ctx) :
    Beside ctx (ctx.noteEdgeCode path code) := by
  unfold Ctx.noteEdgeCode
  split
  · exact ⟨rfl, rfl, fun _ => rfl, .refl _, .refl _, .of_eq rfl⟩
  · exact .refl ctx

theorem beside_noteDerivation (path : NodePath) (ctx : Ctx) : Beside ctx (ctx.noteDerivation path) :=
  ⟨rfl, rfl, fun _ => rfl, .refl _, .refl _,
    fun _ => ⟨rfl, List.Subset.refl _, List.Subset.refl _⟩⟩

theorem beside_report {α : Type} (env : Substrate) (x : Evaluated α) (ctx : Ctx) :
    Beside ctx (ctx.report env x) := by
  refine Beside.trans (Beside.foldl (fun ctx key => ?_) x.used ctx)
    (Beside.foldl (fun ctx entry => ?_) x.anonymous _)
  · exact beside_noteFact key ctx
  · exact beside_noteAnonymous env entry ctx

theorem frame_applyOutcome (env : Substrate) (path : NodePath) (outcome : Outcome) (ctx : Ctx) :
    Frame ctx (ctx.applyOutcome env path outcome) := by
  refine (frame_replaceCurrentChecksum env path outcome.checksum ctx).trans
    (frame_setDerived path ?_ _)
  exact fun _ => rfl

theorem frame_writePins (path : NodePath) (reading : TransformerReading)
    (blocked : List (Reason × String)) (ctx : Ctx) :
    Frame ctx (ctx.writePins path reading blocked) :=
  frame_setDerived path (isCell_mapTransformer _) ctx

theorem frame_publishRun (env : Substrate) (path : NodePath) (record : RunRecord) (ctx : Ctx) :
    Frame ctx (ctx.publishRun env path record) := by
  have hpublish : ∀ checksum state exception, Frame ctx
      ((ctx.replaceCurrentChecksum env path checksum).setDerived path fun node =>
        { node with state := state, blockReason := none, exception := exception }) := by
    intro checksum state exception
    refine (frame_replaceCurrentChecksum env path checksum ctx).trans (frame_setDerived path ?_ _)
    exact fun _ => rfl
  unfold Ctx.publishRun
  dsimp only
  split <;> exact hpublish _ _ _

theorem frame_syncEdgePinRefholds (ctx : Ctx) : Frame ctx ctx.syncEdgePinRefholds :=
  (frame_syncRefholds Prod.fst ctx.edgePinRefholds _ ctx).trans (.of_eq rfl rfl rfl rfl)

theorem frame_syncAnonymousCurrentRefholds (ctx : Ctx) :
    Frame ctx ctx.syncAnonymousCurrentRefholds :=
  (frame_syncRefholds id ctx.anonymousCurrentRefholds _ ctx).trans (.of_eq rfl rfl rfl rfl)

theorem beside_pruneFacts (ctx : Ctx) : Beside ctx ctx.pruneFacts := by
  unfold Ctx.pruneFacts
  refine Beside.trans ?_ (Beside.foldl (fun ctx key => ?_) _ _)
  · exact ⟨rfl, rfl, fun _ => rfl, .refl _, .refl _, .of_eq rfl⟩
  · refine ⟨rfl, rfl, fun _ => rfl, ?_, ?_, .addEffect _ _⟩
    · simp [Ctx.addEffect, Effect.launches]
    · simp [Ctx.addEffect, Effect.posts]

section InTurn

variable {start : ContextRuntime} {handed : Handed} {ctx ctx' : Ctx}

theorem Handed.issuedBy_sublist (handed : Handed) (h : List.Sublist
    (Effect.launches ctx'.effects) (Effect.launches ctx.effects)) :
    List.Sublist (handed.issuedBy ctx') (handed.issuedBy ctx) :=
  List.Sublist.append (.refl _) (h.map _)

theorem Handed.pendingBy_sublist (handed : Handed)
    (hl : List.Sublist (Effect.launches ctx'.effects) (Effect.launches ctx.effects))
    (hp : List.Sublist (Effect.posts ctx'.effects) (Effect.posts ctx.effects)) :
    List.Sublist (handed.pendingBy ctx') (handed.pendingBy ctx) :=
  List.Sublist.append (List.Sublist.append (.refl _) (hl.map _))
    (List.Sublist.append (.refl _) (hp.map _))

theorem InTurn.beside (h : InTurn start handed ctx) (hb : Beside ctx ctx') :
    InTurn start handed ctx' := by
  refine Tracked.beside h hb.runtime hb.superseded (fun path r _ _ hk => ?_)
    (handed.issuedBy_sublist hb.launches) (handed.pendingBy_sublist hb.launches hb.posts)
  rw [hb.kind path]
  exact hk

theorem InTurn.shrinks (h : InTurn start handed ctx) (hs : Shrinks ctx.runtime ctx'.runtime)
    (hsuperseded : ctx'.supersededRefholds = ctx.supersededRefholds)
    (hkind : ∀ path r, ctx'.runtime.currentRuns.lookup path = some r →
      (ctx'.node? path).map Node.isCell = (ctx.node? path).map Node.isCell)
    (hl : List.Sublist (Effect.launches ctx'.effects) (Effect.launches ctx.effects))
    (hp : List.Sublist (Effect.posts ctx'.effects) (Effect.posts ctx.effects)) :
    InTurn start handed ctx' :=
  Tracked.shrinks h hs (fun g c hc => by rwa [hsuperseded] at hc) hkind
    (handed.issuedBy_sublist hl) (handed.pendingBy_sublist hl hp)

/-- The records of one node are rearranged, with the same outcomes. -/
theorem InTurn.rearrange {path : NodePath} {current : Option RunRecord} {queue : List RunRecord}
    (h : InTurn start handed ctx) (hr : Replaces path ctx.runtime ctx'.runtime current queue)
    (hentered : ∀ r ∈ current.toList ++ queue,
      Entered start (handed.pendingBy ctx) ctx path r)
    (hfrom : ∀ r ∈ current.toList ++ queue, ∃ r₀ ∈ ctx.runtime.recordsAt path,
      r₀.generation = r.generation)
    (hdistinct : ((current.toList ++ queue).map RunRecord.generation).Nodup)
    (hcapped : queue.length ≤ supersededCap) (hqueued : ∀ r ∈ queue, r.phase = .superseded)
    (hcurrent : ∀ r, current = some r → r.phase = .running ∨ r.phase = .completed)
    (hlaunched : ∀ r, current = some r → r.launched = true →
      (ctx.node? path).map Node.isCell = some false)
    (hkind : ∀ q, (ctx'.node? q).map Node.isCell = (ctx.node? q).map Node.isCell)
    (hsuperseded : ctx'.supersededRefholds = ctx.supersededRefholds)
    (hl : List.Sublist (Effect.launches ctx'.effects) (Effect.launches ctx.effects))
    (hp : List.Sublist (Effect.posts ctx'.effects) (Effect.posts ctx.effects)) :
    InTurn start handed ctx' := by
  have hissued := handed.issuedBy_sublist hl
  have hpending := handed.pendingBy_sublist hl hp
  refine Tracked.replace h hr (fun r hm => ?_) (fun r hm => Or.inl (hfrom r hm)) hdistinct hcapped
    hqueued hcurrent hkind (fun r hc hlr => ?_) hsuperseded (h.issuedNodup.sublist hissued)
    (h.pendingNodup.sublist hpending) (fun g hg => ?_) fun g hg => Or.inl (hpending.subset hg)
  · exact (hentered r hm).move hr.generation (fun c hc => by rwa [hsuperseded] at hc) fun hg =>
      hpending.subset hg
  · rw [hkind path]
    exact hlaunched r hc hlr
  · refine (h.known g ?_).trans hr.generation
    rcases hg with hg | hg
    · exact Or.inl (hissued.subset hg)
    · exact Or.inr (Or.inl (hpending.subset hg))

/-! ## Superseding -/

theorem ContextRuntime.queue_insert (rt : ContextRuntime) (path q : NodePath)
    (queue : List RunRecord) :
    ContextRuntime.queue { rt with supersededRuns := rt.supersededRuns.insert path queue } q =
      if q = path then queue else rt.queue q := by
  unfold ContextRuntime.queue
  by_cases hq : q = path
  · subst hq
    simp
  · rw [if_neg hq]
    dsimp only
    rw [AList.lookup_insert_ne hq]

theorem replaces_setCurrentRun (path : NodePath) (record : RunRecord) (ctx : Ctx) :
    Replaces path ctx.runtime (ctx.setCurrentRun path record).runtime (some record)
      (ctx.runtime.queue path) where
  current := AList.lookup_insert _
  queue := rfl
  currentElse _ hq := AList.lookup_insert_ne hq
  queueElse _ _ := rfl
  generation := le_rfl

theorem replaces_newRun (path : NodePath) (record : RunRecord) (ctx : Ctx) :
    Replaces path ctx.runtime (({ ctx with runtime := { ctx.runtime with
        generation := ctx.runtime.generation + 1 } } : Ctx).setCurrentRun path record).runtime
      (some record) (ctx.runtime.queue path) where
  current := AList.lookup_insert _
  queue := rfl
  currentElse _ hq := AList.lookup_insert_ne hq
  queueElse _ _ := rfl
  generation := Nat.le_succ _

theorem replaces_congr {path : NodePath} {rt rt₁ rt₂ : ContextRuntime}
    {current : Option RunRecord} {queue : List RunRecord} (h : Replaces path rt rt₁ current queue)
    (he : rt₂ = rt₁) : Replaces path rt rt₂ current queue := he ▸ h

/-- The record that `supersede` puts in the queue. -/
def RunRecord.supersededBy (kind : HoldKind) (now : Nat) (record : RunRecord) : RunRecord :=
  { record with
    phase := .superseded, holdKind := some kind
    holdDeadline := some (SeamlessWorkflow.holdDeadline now kind) }

theorem replaces_supersede {rt : ContextRuntime} {path : NodePath} {current : RunRecord}
    (hc : rt.currentRuns.lookup path = some current) (kind : HoldKind) (now : Nat) :
    Replaces path rt (rt.supersede path kind now).1 none
      ((rt.queue path ++ [current.supersededBy kind now]).drop
        ((rt.queue path ++ [current.supersededBy kind now]).length - supersededCap)) := by
  unfold ContextRuntime.supersede
  rw [hc]
  refine ⟨?_, ?_, fun q hq => ?_, fun q hq => ?_, le_rfl⟩
  · exact AList.lookup_erase _ _
  · simp [ContextRuntime.queue, RunRecord.supersededBy]
  · exact AList.lookup_erase_ne hq
  · simp [ContextRuntime.queue, AList.lookup_insert_ne hq]

@[simp] theorem Ctx.cancelRuns_runtime (records : List RunRecord) (ctx : Ctx) :
    (ctx.cancelRuns records).runtime = ctx.runtime := (frame_cancelRuns records ctx).runtime

/-- A record goes into the queue as it is. -/
theorem Entered.superseded {pending : List Nat} {path : NodePath} {r : RunRecord}
    (h : Entered start pending ctx path r) (kind : HoldKind) (now : Nat) :
    Entered start pending ctx path (r.supersededBy kind now) where
  placed := h.placed
  bounded := h.bounded
  descends := h.descends.imp id fun ⟨r₀, hr₀, hs⟩ =>
    ⟨r₀, hr₀, hs.nodePath, hs.generation, hs.launched, hs.demandKey⟩
  unlaunched := h.unlaunched
  awaited := h.awaited
  held := h.held

theorem InTurn.suspend (h : InTurn start handed ctx) (path : NodePath) :
    InTurn start handed (ctx.suspend path) := by
  unfold Ctx.suspend
  cases hc : ctx.runtime.currentRuns.lookup path with
  | none => exact h
  | some current =>
    dsimp only
    set kind : HoldKind := if ctx.upstreamUnresolved path = true then .upstream else .selfEdit
    have hr := replaces_supersede hc kind ctx.now
    set queue := ctx.runtime.queue path ++ [current.supersededBy kind ctx.now] with hqueue
    have hmem : ∀ r ∈ queue, r ∈ ctx.runtime.queue path ∨
        r = current.supersededBy kind ctx.now := by
      intro r hr
      simpa [hqueue] using hr
    have hcurrent : current ∈ ctx.runtime.recordsAt path :=
      ContextRuntime.mem_recordsAt.mpr (Or.inl hc)
    have hold : ∀ r ∈ ctx.runtime.queue path, r ∈ ctx.runtime.recordsAt path := fun r hr =>
      ContextRuntime.mem_recordsAt.mpr (Or.inr hr)
    have hperm : (queue.map RunRecord.generation).Perm
        ((ctx.runtime.recordsAt path).map RunRecord.generation) := by
      have : ctx.runtime.recordsAt path = [current] ++ ctx.runtime.queue path := by
        unfold ContextRuntime.recordsAt
        rw [hc]
        rfl
      rw [this, hqueue, List.map_append, List.map_append]
      exact List.perm_append_comm
    have hr' := replaces_congr hr (Ctx.cancelRuns_runtime (ContextRuntime.supersede ctx.runtime path
      kind ctx.now).2 (({ ctx with runtime := (ctx.runtime.supersede path kind ctx.now).1 } :
        Ctx).addEffect (.expiryTimer path current.generation)))
    refine InTurn.rearrange h hr' (fun r hr => ?_) (fun r hr => ?_) ?_ ?_ (fun r hr => ?_)
      (fun r hr => by cases hr) (fun r hr => by cases hr) (fun q => ?_) ?_ ?_ ?_
    · rcases hmem r (List.drop_sublist _ _ |>.subset hr) with hr | rfl
      · exact h.entered path r (hold r hr)
      · exact (h.entered path current hcurrent).superseded kind ctx.now
    · rcases hmem r (List.drop_sublist _ _ |>.subset hr) with hr | rfl
      · exact ⟨r, hold r hr, rfl⟩
      · exact ⟨current, hcurrent, rfl⟩
    · exact (hperm.nodup_iff.mpr (h.distinct path)).sublist ((List.drop_sublist _ _).map _)
    · rw [List.length_drop]
      omega
    · rcases hmem r (List.drop_sublist _ _ |>.subset hr) with hr | rfl
      · exact h.queued path r hr
      · rfl
    · exact (frame_cancelRuns _ _).kind q
    · exact (frame_cancelRuns _ _).superseded
    · refine (frame_cancelRuns _ _).launches.trans ?_
      simp [Ctx.addEffect, Effect.launches]
    · refine (frame_cancelRuns _ _).posts.trans ?_
      simp [Ctx.addEffect, Effect.posts]

/-- The current run is written back. -/
theorem InTurn.setCurrentRun (h : InTurn start handed ctx) {path : NodePath} {record : RunRecord}
    (hc : ctx.runtime.currentRuns.lookup path = some record) :
    InTurn start handed (ctx.setCurrentRun path record) := by
  have he : (some record).toList ++ ctx.runtime.queue path = ctx.runtime.recordsAt path := by
    unfold ContextRuntime.recordsAt
    rw [hc]
  refine h.rearrange (replaces_setCurrentRun path record ctx) (fun r hr => ?_) (fun r hr => ?_) ?_
    (h.capped path) (h.queued path) (fun r hr => ?_) (fun r hr hl => ?_) (fun _ => rfl) rfl
    (.refl _) (.refl _)
  · exact h.entered path r (he ▸ hr)
  · exact ⟨r, he ▸ hr, rfl⟩
  · rw [he]
    exact h.distinct path
  · exact h.current path r (hc.trans hr)
  · exact h.kind path r (hc.trans hr) hl

/-! ## Dropping -/

/-- Runs are dropped and cancelled. -/
theorem InTurn.cancel (h : InTurn start handed ctx) (rt : ContextRuntime)
    (hs : Shrinks ctx.runtime rt) (records : List RunRecord) :
    InTurn start handed (({ ctx with runtime := rt } : Ctx).cancelRuns records) := by
  have hf := frame_cancelRuns records { ctx with runtime := rt }
  refine h.shrinks ?_ hf.superseded (fun path r _ => hf.kind path) hf.launches hf.posts
  rw [hf.runtime]
  exact hs

/-- The records that are dropped from a queue are cancelled. -/
theorem shrinks_dropQueued (path : NodePath) (dropped : RunRecord → Bool) (ctx : Ctx) :
    ∃ rt records, Shrinks ctx.runtime rt ∧
      ctx.dropQueued path dropped = ({ ctx with runtime := rt } : Ctx).cancelRuns records := by
  unfold Ctx.dropQueued
  cases hq : ctx.runtime.supersededRuns.lookup path with
  | none => exact ⟨ctx.runtime, [], ⟨rfl, fun _ _ hr => hr, fun _ => .refl _⟩, rfl⟩
  | some queue =>
    refine ⟨{ ctx.runtime with
      supersededRuns := ctx.runtime.supersededRuns.insert path
        (queue.filter fun record => !dropped record) }, queue.filter dropped,
      ⟨rfl, fun _ _ hr => hr, fun q => ?_⟩, rfl⟩
    rw [ContextRuntime.queue_insert]
    by_cases he : q = path
    · have hqueue : ctx.runtime.queue path = queue := by
        unfold ContextRuntime.queue
        rw [hq]
        rfl
      rw [if_pos he, he, hqueue]
      exact List.filter_sublist
    · rw [if_neg he]

theorem InTurn.dropQueued (h : InTurn start handed ctx) (path : NodePath)
    (dropped : RunRecord → Bool) : InTurn start handed (ctx.dropQueued path dropped) := by
  obtain ⟨rt, records, hs, he⟩ := shrinks_dropQueued path dropped ctx
  rw [he]
  exact h.cancel rt hs records

/-! ## New runs -/

theorem nodup_of_subperm {α : Type} {l l' : List α} (h : List.Subperm l l') (hn : l'.Nodup) :
    l.Nodup := by
  obtain ⟨l₀, hp, hs⟩ := h
  exact hp.nodup_iff.mp (hn.sublist hs)

/-- A new record takes the place of the current one. -/
theorem InTurn.publish (h : InTurn start handed ctx) (path : NodePath) (record : RunRecord)
    (hcounted : ctx'.runtime.generation = ctx.runtime.generation + 1)
    (hr : Replaces path ctx.runtime ctx'.runtime (some record) (ctx.runtime.queue path))
    (hgeneration : record.generation = ctx.runtime.generation + 1) (hpath : record.nodePath = path)
    (hphase : record.phase = .running ∨ record.phase = .completed)
    (hlaunched : record.launched = true → (ctx.node? path).map Node.isCell = some false ∧
      record.Awaited)
    (hunlaunched : record.launched = false → record.resultChecksum = record.identityChecksum ∧
      record.demandKey = none ∧ ctx'.effects = ctx.effects)
    (hkind : ∀ q, (ctx'.node? q).map Node.isCell = (ctx.node? q).map Node.isCell)
    (hsuperseded : ctx'.supersededRefholds = ctx.supersededRefholds)
    (hissued : List.Subperm (handed.issuedBy ctx') (record.generation :: handed.issuedBy ctx))
    (hpending : List.Subperm (handed.pendingBy ctx') (record.generation :: handed.pendingBy ctx)) :
    InTurn start handed ctx' := by
  have hnew : ∀ g, g ∈ handed.issuedBy ctx ∨ g ∈ handed.pendingBy ctx ∨
      (ctx.supersededRefholds.lookup g).isSome → g ≠ record.generation := by
    intro g hg
    have := h.known g hg
    omega
  have hqueue : ∀ r ∈ ctx.runtime.queue path, r ∈ ctx.runtime.recordsAt path := fun r hr =>
    ContextRuntime.mem_recordsAt.mpr (Or.inr hr)
  have hissuedNodup := nodup_of_subperm hissued
    (List.nodup_cons.mpr ⟨fun hm => hnew _ (Or.inl hm) rfl, h.issuedNodup⟩)
  have hpendingNodup := nodup_of_subperm hpending
    (List.nodup_cons.mpr ⟨fun hm => hnew _ (Or.inr (Or.inl hm)) rfl, h.pendingNodup⟩)
  refine Tracked.replace h hr (fun r hm => ?_) (fun r hm => ?_) ?_ (h.capped path) (h.queued path)
    (fun r hc => ?_) hkind (fun r hc hl => ?_) hsuperseded hissuedNodup hpendingNodup
    (fun g hg => ?_) fun g hg => ?_
  · simp only [Option.toList_some, List.singleton_append, List.mem_cons] at hm
    rcases hm with rfl | hm
    · refine ⟨hpath, by omega, Or.inl ?_, fun hl => ?_, fun hg => ?_, fun c hc => ?_⟩
      · have := h.generation
        omega
      · exact ⟨(hunlaunched hl).1, (hunlaunched hl).2.1⟩
      · by_contra ha
        cases hl : r.launched with
        | true => exact ha (hlaunched hl).2
        | false =>
          have he : handed.pendingBy ctx' = handed.pendingBy ctx := by
            unfold Handed.pendingBy Ctx.launchedRuns Ctx.postedRuns
            rw [(hunlaunched hl).2.2]
          rw [he] at hg
          exact hnew _ (Or.inr (Or.inl hg)) rfl
      · rw [hsuperseded] at hc
        exact absurd rfl (hnew _ (Or.inr (Or.inr (by rw [hc]; rfl))))
    · refine (h.entered path r (hqueue r hm)).move hr.generation
        (fun c hc => by rwa [hsuperseded] at hc) fun hg => ?_
      rcases List.mem_cons.mp (hpending.subset hg) with hg | hg
      · have := (h.entered path r (hqueue r hm)).bounded
        omega
      · exact hg
  · simp only [Option.toList_some, List.singleton_append, List.mem_cons] at hm
    rcases hm with rfl | hm
    · exact Or.inr (by omega)
    · exact Or.inl ⟨r, hqueue r hm, rfl⟩
  · simp only [Option.toList_some, List.singleton_append, List.map_cons, List.nodup_cons]
    refine ⟨fun hm => ?_, (h.distinct path).sublist ((List.sublist_append_right _ _).map _)⟩
    obtain ⟨r, hm, he⟩ := List.mem_map.mp hm
    have := (h.entered path r (hqueue r hm)).bounded
    omega
  · obtain rfl := Option.some.inj hc
    exact hphase
  · obtain rfl := Option.some.inj hc
    rw [hkind path]
    exact (hlaunched hl).1
  · rcases hg with hg | hg
    · rcases List.mem_cons.mp (hissued.subset hg) with hg | hg
      · omega
      · exact (h.known g (Or.inl hg)).trans hr.generation
    · rcases List.mem_cons.mp (hpending.subset hg) with hg | hg
      · omega
      · exact (h.known g (Or.inr (Or.inl hg))).trans hr.generation
  · rcases List.mem_cons.mp (hpending.subset hg) with hg | hg
    · exact Or.inr (Or.inr (by omega))
    · exact Or.inl hg

theorem Handed.issuedBy_launch (handed : Handed) {shown : Ctx} {run : LaunchedRun}
    (hl : List.Sublist (Effect.launches shown.effects) (Effect.launches ctx.effects))
    (he : Effect.launches ctx'.effects = Effect.launches shown.effects ++ [run]) :
    List.Subperm (handed.issuedBy ctx') (run.generation :: handed.issuedBy ctx) := by
  have hsub : List.Sublist (run.generation :: handed.issuedBy shown)
      (run.generation :: handed.issuedBy ctx) := (handed.issuedBy_sublist hl).cons_cons _
  refine List.Subperm.trans (List.Perm.subperm ?_) hsub.subperm
  unfold Handed.issuedBy Ctx.launchedRuns
  rw [he, List.map_append, ← List.append_assoc]
  exact List.perm_append_singleton _ _

theorem Handed.pendingBy_launch (handed : Handed) {shown : Ctx} {run : LaunchedRun}
    (hl : List.Sublist (Effect.launches shown.effects) (Effect.launches ctx.effects))
    (hp : List.Sublist (Effect.posts shown.effects) (Effect.posts ctx.effects))
    (he : Effect.launches ctx'.effects = Effect.launches shown.effects ++ [run])
    (hs : Effect.posts ctx'.effects = Effect.posts shown.effects) :
    List.Subperm (handed.pendingBy ctx') (run.generation :: handed.pendingBy ctx) := by
  have hsub : List.Sublist (run.generation :: handed.pendingBy shown)
      (run.generation :: handed.pendingBy ctx) := (handed.pendingBy_sublist hl hp).cons_cons _
  refine List.Subperm.trans (List.Perm.subperm ?_) hsub.subperm
  unfold Handed.pendingBy Ctx.launchedRuns Ctx.postedRuns
  rw [he, hs, List.map_append, ← List.append_assoc]
  refine List.Perm.trans ?_ List.perm_middle
  simp

theorem InTurn.launch (h : InTurn start handed ctx) (env : Substrate) (path : NodePath) (node : Node)
    (key : DemandKey) (hk : (ctx.node? path).map Node.isCell = some false) :
    InTurn start handed (ctx.launch env path node key) := by
  unfold Ctx.launch
  dsimp only
  set record : RunRecord :=
    { nodePath := path, launched := true, phase := .running, generation := ctx.runtime.generation + 1
      demandKey := some key
      dispatchScratch := some (node.scratch && ctx.graph.feedsNonScratchHolder env path ≠ some true) }
  set counted : Ctx := { ctx with runtime := { ctx.runtime with
    generation := ctx.runtime.generation + 1 } }
  set shown : Ctx := ((counted.setCurrentRun path record).replaceCurrentChecksum env path none).setDerived
    path fun node => { node with state := .computing, blockReason := none, exception := none } with hshown
  have hf : Frame (counted.setCurrentRun path record) shown := by
    refine (frame_replaceCurrentChecksum env path none _).trans (frame_setDerived path ?_ _)
    exact fun _ => rfl
  have hl : Effect.launches (shown.addEffect (.launchRun path (ctx.runtime.generation + 1) key
      node.ident)).effects =
        Effect.launches shown.effects ++ [⟨path, ctx.runtime.generation + 1, key, node.ident⟩] := by
    simp [Ctx.addEffect, Effect.launches]
  have hp : Effect.posts (shown.addEffect (.launchRun path (ctx.runtime.generation + 1) key
      node.ident)).effects = Effect.posts shown.effects := by
    simp [Ctx.addEffect, Effect.posts]
  have hlaunches : List.Sublist (Effect.launches shown.effects) (Effect.launches ctx.effects) :=
    hf.launches
  have hposts : List.Sublist (Effect.posts shown.effects) (Effect.posts ctx.effects) := hf.posts
  refine h.publish path record ?_ (replaces_congr (replaces_newRun path record ctx) hf.runtime) rfl rfl
    (Or.inl rfl) (fun _ => ⟨hk, rfl, rfl, rfl⟩) (fun hl => ?_) hf.kind hf.superseded ?_ ?_
  · exact congrArg ContextRuntime.generation hf.runtime
  · cases hl
  · exact handed.issuedBy_launch hlaunches hl
  · exact handed.pendingBy_launch hlaunches hposts hl hp

/-- A cell gets a record for its checksum. -/
theorem InTurn.startCellRun (h : InTurn start handed ctx) (path : NodePath) (node : Node)
    (checksum : Checksum) : InTurn start handed (ctx.startCellRun path node checksum) := by
  have hstart : ∀ phase : RunPhase, phase = .running ∨ phase = .completed →
      InTurn start handed (({ ctx with runtime := { ctx.runtime with
        generation := ctx.runtime.generation + 1 } } : Ctx).setCurrentRun path
          { nodePath := path, identityChecksum := some checksum, resultChecksum := some checksum
            error := node.exception, generation := ctx.runtime.generation + 1, phase := phase }) := by
    intro phase hphase
    set record : RunRecord :=
      { nodePath := path, identityChecksum := some checksum, resultChecksum := some checksum
        error := node.exception, generation := ctx.runtime.generation + 1, phase := phase }
    refine h.publish path record rfl (replaces_newRun path record ctx) rfl rfl hphase (fun hl => ?_)
      (fun _ => ⟨rfl, rfl, rfl⟩) (fun _ => rfl) rfl ?_ ?_
    · cases hl
    · exact List.Subperm.cons_self
    · exact List.Subperm.cons_self
  unfold Ctx.startCellRun
  split
  · exact hstart _ (by split <;> simp)
  · exact hstart _ (by split <;> simp)
  · exact hstart _ (by split <;> simp)
  · exact h

/-! ## Reinstating -/

/-- A superseded run has been made current again, and what it has delivered is posted. -/
structure Reinstates (path : NodePath) (record : RunRecord) (ctx ctx' : Ctx) : Prop where
  replaces : Replaces path ctx.runtime ctx'.runtime (some record.reinstated)
    ((ctx.runtime.queue path).erase record)
  kind : ∀ q, (ctx'.node? q).map Node.isCell = (ctx.node? q).map Node.isCell
  superseded : ctx'.supersededRefholds = ctx.supersededRefholds
  launches : Effect.launches ctx'.effects = Effect.launches ctx.effects
  posts : Effect.posts ctx'.effects = Effect.posts ctx.effects ∨
    (record.resultChecksum.isSome ∨ record.error.isSome) ∧
      Effect.posts ctx'.effects = Effect.posts ctx.effects ++
        [⟨path, record.generation, record.identityChecksum, record.resultChecksum, record.error⟩]

theorem Reinstates.pending {path : NodePath} {record : RunRecord}
    (hr : Reinstates path record ctx ctx') (h : InTurn start handed ctx)
    (hm : record ∈ ctx.runtime.recordsAt path) :
    (handed.pendingBy ctx').Nodup ∧
      ∀ g ∈ handed.pendingBy ctx', g ∈ handed.pendingBy ctx ∨ g = record.generation := by
  rcases hr.posts with hp | ⟨hd, hp⟩
  · have : handed.pendingBy ctx' = handed.pendingBy ctx := by
      unfold Handed.pendingBy Ctx.launchedRuns Ctx.postedRuns
      rw [hr.launches, hp]
    rw [this]
    exact ⟨h.pendingNodup, fun g hg => Or.inl hg⟩
  · have he : handed.pendingBy ctx' = handed.pendingBy ctx ++ [record.generation] := by
      unfold Handed.pendingBy Ctx.launchedRuns Ctx.postedRuns
      rw [hr.launches, hp]
      simp
    -- what has been delivered is not awaited, so no message for it is under way
    have hnot : record.generation ∉ handed.pendingBy ctx := by
      intro hg
      have ha := (h.entered path record hm).awaited hg
      rw [ha.2.1, ha.2.2] at hd
      simp at hd
    rw [he]
    refine ⟨List.nodup_append.mpr ⟨h.pendingNodup, List.nodup_singleton _, ?_⟩, fun g hg => ?_⟩
    · rintro a ha b hb rfl
      rw [List.mem_singleton.mp hb] at ha
      exact hnot ha
    · simpa using hg

theorem InTurn.reinstates {path : NodePath} {record : RunRecord} (h : InTurn start handed ctx)
    (hr : Reinstates path record ctx ctx') (hm : record ∈ ctx.runtime.queue path)
    (hl : record.launched = true) (hk : (ctx.node? path).map Node.isCell = some false) :
    InTurn start handed ctx' := by
  have hold : ∀ r ∈ ctx.runtime.queue path, r ∈ ctx.runtime.recordsAt path := fun r hr =>
    ContextRuntime.mem_recordsAt.mpr (Or.inr hr)
  obtain ⟨hnodup, hpending⟩ := hr.pending h (hold record hm)
  have hissued : handed.issuedBy ctx' = handed.issuedBy ctx := by
    unfold Handed.issuedBy Ctx.launchedRuns
    rw [hr.launches]
  have hperm := List.perm_cons_erase hm
  have hdistinct : ((record :: (ctx.runtime.queue path).erase record).map
      RunRecord.generation).Nodup := by
    refine (hperm.map RunRecord.generation).nodup_iff.mp ((h.distinct path).sublist ?_)
    exact (List.sublist_append_right _ _).map _
  have hrecord := h.entered path record (hold record hm)
  refine Tracked.replace h hr.replaces (fun r hq => ?_) (fun r hq => Or.inl ?_) ?_ ?_ (fun r hq => ?_)
    (fun r hc => ?_) hr.kind (fun r hc _ => ?_) hr.superseded ?_ hnodup (fun g hg => ?_) fun g hg => ?_
  · simp only [Option.toList_some, List.singleton_append, List.mem_cons] at hq
    rcases hq with rfl | hq
    · refine ⟨hrecord.placed, hrecord.bounded.trans hr.replaces.generation, ?_, fun hf => ?_,
        fun _ => ⟨hl, rfl, rfl⟩, fun c _ c' hc' => ?_⟩
      · exact hrecord.descends.imp id fun ⟨r₀, hr₀, hs⟩ =>
          ⟨r₀, hr₀, hs.nodePath, hs.generation, hs.launched, hs.demandKey⟩
      · have : record.launched = false := hf
        rw [hl] at this
        cases this
      · cases hc'
    · refine (h.entered path r (hold r (List.mem_of_mem_erase hq))).move hr.replaces.generation
        (fun c hc => by rwa [hr.superseded] at hc) fun hg => ?_
      rcases hpending _ hg with hg | hg
      · exact hg
      · rw [List.map_cons, List.nodup_cons] at hdistinct
        exact absurd (List.mem_map.mpr ⟨r, hq, hg⟩) hdistinct.1
  · simp only [Option.toList_some, List.singleton_append, List.mem_cons] at hq
    rcases hq with rfl | hq
    · exact ⟨record, hold record hm, rfl⟩
    · exact ⟨r, hold r (List.mem_of_mem_erase hq), rfl⟩
  · exact hdistinct
  · exact (List.erase_sublist).length_le.trans (h.capped path)
  · exact h.queued path r (List.mem_of_mem_erase hq)
  · obtain rfl := Option.some.inj hc
    exact Or.inl rfl
  · rw [hr.kind path]
    exact hk
  · rw [hissued]
    exact h.issuedNodup
  · refine le_trans ?_ hr.replaces.generation
    rw [hissued] at hg
    rcases hg with hg | hg
    · exact h.known g (Or.inl hg)
    · rcases hpending g hg with hg | rfl
      · exact h.known g (Or.inr (Or.inl hg))
      · exact hrecord.bounded
  · rcases hpending g hg with hg | rfl
    · exact Or.inl hg
    · exact Or.inr (Or.inl ⟨record, hold record hm, rfl⟩)

theorem InTurn.reinstate (h : InTurn start handed ctx) (env : Substrate) {path : NodePath}
    {record : RunRecord} (hm : record ∈ ctx.runtime.queue path) (hl : record.launched = true)
    (hk : (ctx.node? path).map Node.isCell = some false) :
    InTurn start handed (ctx.reinstate env path record) := by
  unfold Ctx.reinstate
  dsimp only
  refine InTurn.beside ?_ (frame_publishRun env path _ _).beside
  set queue := (ctx.runtime.queue path).erase record
  have hr : ∀ ctx₁ : Ctx, ctx₁.runtime =
      { ctx.runtime with supersededRuns := ctx.runtime.supersededRuns.insert path queue } →
      Replaces path ctx.runtime (ctx₁.setCurrentRun path record.reinstated).runtime
        (some record.reinstated) queue := by
    intro ctx₁ he
    unfold Ctx.setCurrentRun
    rw [he]
    refine ⟨AList.lookup_insert _, ?_, fun q hq => AList.lookup_insert_ne hq, fun q hq => ?_, le_rfl⟩
    · exact (ContextRuntime.queue_insert ctx.runtime path path _).trans (if_pos rfl)
    · exact (ContextRuntime.queue_insert ctx.runtime path q _).trans (if_neg hq)
  refine h.reinstates ⟨?_, fun q => ?_, ?_, ?_, ?_⟩ hm hl hk
  · refine hr _ ?_
    split <;> rfl
  · split <;> rfl
  · split <;> rfl
  · split
    · simp [Ctx.setCurrentRun, Ctx.addEffect, Effect.launches]
    · rfl
  · split
    · rename_i hd
      refine Or.inr ⟨by simpa using hd, ?_⟩
      simp [Ctx.setCurrentRun, Ctx.addEffect, Effect.posts]
    · exact Or.inl rfl

/-! ## Nodes -/

theorem InTurn.meetDemand (h : InTurn start handed ctx) (env : Substrate) (path : NodePath)
    (node : Node) (key : DemandKey) (hk : (ctx.node? path).map Node.isCell = some false) :
    InTurn start handed (ctx.meetDemand env path node key) := by
  unfold Ctx.meetDemand
  dsimp only
  have hreleased := h.dropQueued path fun record =>
    decide (record.holdKind = some .upstream) && decide (record.phase ≠ .cancelled) &&
      !decide (record.demandKey = some key)
  have hsuspended := hreleased.suspend path
  have hkind : ∀ ctx' : Ctx, ctx'.durable = ctx.durable →
      (ctx'.node? path).map Node.isCell = some false := fun ctx' hd => by
    rw [kind_of_durable hd]
    exact hk
  split
  · exact hreleased.beside (frame_publishRun env path _ _).beside
  · split
    · rename_i record hcandidate
      have hm := List.mem_of_find?_eq_some hcandidate
      have hp := List.find?_some hcandidate
      simp only [Bool.and_eq_true, decide_eq_true_eq] at hp
      have hrecord := ContextRuntime.mem_recordsAt.mpr (Or.inr hm)
      refine hsuspended.reinstate env hm (hsuspended.launched_of_demandKey hrecord hp.1.1)
        (hkind _ ?_)
      simp
    · refine hsuspended.launch env path node key (hkind _ ?_)
      simp

theorem InTurn.deriveNode (h : InTurn start handed ctx) (env : Substrate) (path : NodePath) :
    InTurn start handed (ctx.deriveNode env path) := by
  replace h := h.beside (beside_noteDerivation path ctx)
  unfold Ctx.deriveNode
  dsimp only
  generalize ctx.noteDerivation path = ctx at h
  cases hn : ctx.node? path with
  | none => exact h
  | some node =>
    dsimp only
    cases hb : node.body with
    | cell fields =>
      exact h.beside ((beside_report env _ ctx).trans (frame_applyOutcome env path _ _).beside)
    | transformer fields =>
      dsimp only
      unfold Ctx.deriveTransformer
      dsimp only
      have hreport : InTurn start handed ((ctx.report env
          (transformerReading env ctx.view path fields)).noteEdgeCode path
            (transformerReading env ctx.view path fields).value.edgeCode) :=
        h.beside ((beside_report env _ ctx).trans (beside_noteEdgeCode path _ _))
      split
      · refine InTurn.beside (InTurn.suspend ?_ path) (frame_applyOutcome env path _ _).beside
        exact hreport.beside (frame_writePins path _ _ _).beside
      · refine InTurn.beside (InTurn.suspend ?_ path) (frame_applyOutcome env path _ _).beside
        exact hreport.beside (frame_writePins path _ _ _).beside
      · refine InTurn.meetDemand ?_ env path node _ ?_
        · exact hreport.beside (frame_writePins path _ _ _).beside
        · rw [kind_of_durable (show _ = ctx.durable by simp), hn]
          simp [Node.isCell, hb]

theorem InTurn.updateRuntime (h : InTurn start handed ctx) (path : NodePath) :
    InTurn start handed (ctx.updateRuntime path) := by
  unfold Ctx.updateRuntime
  cases hn : ctx.node? path with
  | none => exact h
  | some node =>
    dsimp only
    cases hcell : node.isCell with
    | false => exact h
    | true =>
      cases hs : node.currentChecksum with
      | none => exact h.suspend path
      | some checksum =>
        have hreleased := h.dropQueued path fun record =>
          decide (record.holdKind = some .upstream) && decide (record.phase ≠ .cancelled) && !false
        simp only [Bool.not_true, Bool.false_eq_true, if_false]
        cases hc : (ctx.releaseUpstreamHolds path fun _ => false).runtime.currentRuns.lookup path with
        | none => exact hreleased.startCellRun path node checksum
        | some current =>
          dsimp only
          by_cases hi : current.identityChecksum = some checksum
          · rw [if_pos hi]
            -- the run of a cell has its checksum from the start
            have hl : current.launched = false := by
              by_contra hl
              have hk := hreleased.kind path current hc (by simpa using hl)
              rw [kind_of_durable (show _ = ctx.durable by simp), hn] at hk
              rw [Option.map_some, hcell] at hk
              cases hk
            have hresult := (hreleased.entered path current
              (ContextRuntime.mem_recordsAt.mpr (Or.inl hc))).unlaunched hl
            have he : ({ current with resultChecksum := some checksum } : RunRecord) = current := by
              rw [← hresult.1.trans hi]
            rw [he]
            exact hreleased.setCurrentRun hc
          · rw [if_neg hi]
            exact (hreleased.suspend path).startCellRun path node checksum

end InTurn

end SeamlessWorkflow
