import SeamlessWorkflow.Proofs.OwnResults

/-!
# Every run that is awaited is still to be heard of

A record that has neither a result nor an error is awaited: its run has not finished, or a message
about it is under way. A Context that has ended does not wait for anything. Derivation launches a run
or posts a message for each record that it makes wait, and a message that arrives ends the wait.
-/

namespace SeamlessWorkflow

open Program Relation

/-- A message brings a result or an error. -/
def Finished.Tells (message : Finished) : Prop :=
  message.result.isSome = true ∨ message.error.isSome = true

/-- A run of this node under this generation has not finished, or a message is under way that brings
what it has delivered. -/
def Coming (outstanding : List LaunchedRun) (posted : List Finished) (path : NodePath)
    (generation : Nat) : Prop :=
  (∃ run ∈ outstanding, run.path = path ∧ run.generation = generation) ∨
    ∃ message ∈ posted, message.path = path ∧ message.generation = generation ∧ message.Tells

/-- Unless the Context has ended, every awaited record is still to be heard of. -/
def Pursued (outstanding : List LaunchedRun) (posted : List Finished) (ctx : Ctx) : Prop :=
  ctx.closing = false → ctx.poisoned = false ∧ ∀ path, ∀ r ∈ ctx.runtime.recordsAt path,
    r.Awaited → Coming outstanding posted path r.generation

/-- The same within a turn, whose effects have not been carried out. -/
def PursuedInTurn (outstanding : List LaunchedRun) (posted : List Finished) (ctx : Ctx) : Prop :=
  Pursued (outstanding ++ Effect.launches ctx.effects) (posted ++ Effect.posts ctx.effects) ctx

/-- Every awaited record comes from an awaited record of the same run, and what has been launched and
posted stays so. -/
structure Pursues (ctx ctx' : Ctx) : Prop where
  records : ∀ path, ∀ r' ∈ ctx'.runtime.recordsAt path, r'.Awaited →
    ∃ r ∈ ctx.runtime.recordsAt path, r.generation = r'.generation ∧ r.Awaited
  handsOn : HandsOn ctx ctx'

theorem Coming.mono {outstanding outstanding' : List LaunchedRun} {posted posted' : List Finished}
    (ho : outstanding ⊆ outstanding') (hp : posted ⊆ posted') {path : NodePath} {generation : Nat}
    (h : Coming outstanding posted path generation) : Coming outstanding' posted' path generation := by
  rcases h with ⟨run, hrun, hrest⟩ | ⟨message, hmessage, hrest⟩
  · exact Or.inl ⟨run, ho hrun, hrest⟩
  · exact Or.inr ⟨message, hp hmessage, hrest⟩

namespace Pursues

theorem trans {a b c : Ctx} (h : Pursues a b) (h' : Pursues b c) : Pursues a c := by
  refine ⟨fun path r'' hr'' ha => ?_, h.handsOn.trans h'.handsOn⟩
  obtain ⟨r', hr', hg', ha'⟩ := h'.records path r'' hr'' ha
  obtain ⟨r, hr, hg, ha⟩ := h.records path r' hr' ha'
  exact ⟨r, hr, hg.trans hg', ha⟩

theorem of_records {ctx ctx' : Ctx}
    (hrecords : ∀ path, ctx'.runtime.recordsAt path ⊆ ctx.runtime.recordsAt path)
    (heffects : HandsOn ctx ctx') : Pursues ctx ctx' :=
  ⟨fun path r hr ha => ⟨r, hrecords path hr, rfl, ha⟩, heffects⟩

theorem of_runtime {ctx ctx' : Ctx} (h : ctx'.runtime = ctx.runtime) (heffects : HandsOn ctx ctx') :
    Pursues ctx ctx' :=
  .of_records (fun _ => by rw [h]; exact List.Subset.refl _) heffects

theorem of_beside {ctx ctx' : Ctx} (h : Beside ctx ctx') : Pursues ctx ctx' :=
  .of_runtime h.runtime h.handsOn

theorem of_frame {ctx ctx' : Ctx} (h : Frame ctx ctx') : Pursues ctx ctx' :=
  .of_runtime h.runtime h.handsOn

theorem refl (ctx : Ctx) : Pursues ctx ctx := .of_runtime rfl (.refl ctx)

/-- Runs are dropped and cancelled. -/
theorem cancel (ctx : Ctx) (rt : ContextRuntime) (hs : Shrinks ctx.runtime rt)
    (records : List RunRecord) : Pursues ctx (({ ctx with runtime := rt } : Ctx).cancelRuns records) := by
  have hf := frame_cancelRuns records { ctx with runtime := rt }
  refine .of_records (fun path => ?_) ((HandsOn.of_eq rfl).trans hf.handsOn)
  rw [hf.runtime]
  exact (hs.records path).subset

end Pursues

section InTurn

variable {outstanding : List LaunchedRun} {posted : List Finished} {ctx ctx' : Ctx}

/-- Records that are awaited are still to be heard of once more has been launched and posted. -/
theorem PursuedInTurn.handsOn (h : PursuedInTurn outstanding posted ctx) (hh : HandsOn ctx ctx')
    (hrecords : ∀ path, ∀ r' ∈ ctx'.runtime.recordsAt path, r'.Awaited →
      (∃ r ∈ ctx.runtime.recordsAt path, r.generation = r'.generation ∧ r.Awaited) ∨
        Coming (outstanding ++ Effect.launches ctx'.effects) (posted ++ Effect.posts ctx'.effects)
          path r'.generation) : PursuedInTurn outstanding posted ctx' := by
  intro hopen
  obtain ⟨hends, hl, hp⟩ := hh hopen
  obtain ⟨hpoisoned, hcoming⟩ := h ((congrArg Prod.fst hends).symm.trans hopen)
  refine ⟨(congrArg Prod.snd hends).trans hpoisoned, fun path r' hr' ha' => ?_⟩
  rcases hrecords path r' hr' ha' with ⟨r, hr, hg, ha⟩ | hnew
  · rw [← hg]
    exact (hcoming path r hr ha).mono (List.append_subset.mpr
      ⟨List.subset_append_left _ _, List.Subset.trans hl (List.subset_append_right _ _)⟩)
      (List.append_subset.mpr
        ⟨List.subset_append_left _ _, List.Subset.trans hp (List.subset_append_right _ _)⟩)
  · exact hnew

theorem PursuedInTurn.pursues (h : PursuedInTurn outstanding posted ctx) (hp : Pursues ctx ctx') :
    PursuedInTurn outstanding posted ctx' :=
  h.handsOn hp.handsOn fun path r' hr' ha => Or.inl (hp.records path r' hr' ha)

end InTurn

/-! ## Derivation -/

theorem pursues_sync (ctx : Ctx) : Pursues ctx ctx.syncSupersededRefholds :=
  .of_runtime (tableOnly_sync ctx).runtime
    (.of_eq (tableOnly_sync ctx).outcome)

theorem pursues_suspend (path : NodePath) (ctx : Ctx) : Pursues ctx (ctx.suspend path) := by
  unfold Ctx.suspend
  cases hc : ctx.runtime.currentRuns.lookup path with
  | none => exact .refl ctx
  | some current =>
    dsimp only
    set kind : HoldKind := if ctx.upstreamUnresolved path = true then .upstream else .selfEdit
    have hr := replaces_supersede hc kind ctx.now
    set superseded : Ctx := { ctx with runtime := (ctx.runtime.supersede path kind ctx.now).1 }
    have hsuperseded : Pursues ctx (superseded.addEffect (.expiryTimer path current.generation)) := by
      refine ⟨fun q r' hr' ha => ?_, (HandsOn.of_eq rfl).trans (.addEffect superseded _)⟩
      rcases hr.mem_recordsAt hr' with ⟨rfl, hnone | hr'⟩ | hr'
      · cases hnone
      · rcases List.mem_append.mp ((List.drop_sublist _ _).subset hr') with hr' | hr'
        · exact ⟨r', ContextRuntime.mem_recordsAt.mpr (Or.inr hr'), rfl, ha⟩
        · obtain rfl := List.mem_singleton.mp hr'
          exact ⟨current, ContextRuntime.mem_recordsAt.mpr (Or.inl hc), rfl, ha⟩
      · exact ⟨r', hr', rfl, ha⟩
    exact hsuperseded.trans (.of_frame (frame_cancelRuns _ _))

theorem pursues_dropQueued (path : NodePath) (dropped : RunRecord → Bool) (ctx : Ctx) :
    Pursues ctx (ctx.dropQueued path dropped) := by
  obtain ⟨rt, records, hs, he⟩ := shrinks_dropQueued path dropped ctx
  rw [he]
  exact .cancel ctx rt hs records

/-- A record that is not awaited becomes current. -/
theorem pursues_setCurrentRun {path : NodePath} {record : RunRecord} (ctx : Ctx)
    (h : ¬ record.Awaited) : Pursues ctx (ctx.setCurrentRun path record) := by
  have hr := replaces_setCurrentRun path record ctx
  refine ⟨fun q r' hr' ha => ?_, .of_eq rfl⟩
  rcases hr.mem_recordsAt hr' with ⟨rfl, hnew | hr'⟩ | hr'
  · obtain rfl := Option.some.inj hnew
    exact absurd ha h
  · exact ⟨r', ContextRuntime.mem_recordsAt.mpr (Or.inr hr'), rfl, ha⟩
  · exact ⟨r', hr', rfl, ha⟩

/-- The record of a cell holds its value from the start. -/
theorem pursues_startCellRun (path : NodePath) (node : Node) (checksum : Checksum) (ctx : Ctx) :
    Pursues ctx (ctx.startCellRun path node checksum) := by
  set counted : Ctx :=
    { ctx with runtime := { ctx.runtime with generation := ctx.runtime.generation + 1 } }
  have hcounted : Pursues ctx counted := .of_records (fun _ => List.Subset.refl _) (.of_eq rfl)
  have hrecord : ∀ r : RunRecord, r.resultChecksum = some checksum → ¬ r.Awaited := fun r hr ha => by
    rw [ha.2.1] at hr
    cases hr
  unfold Ctx.startCellRun
  split
  · exact hcounted.trans (pursues_setCurrentRun counted (hrecord _ rfl))
  · exact hcounted.trans (pursues_setCurrentRun counted (hrecord _ rfl))
  · exact hcounted.trans (pursues_setCurrentRun counted (hrecord _ rfl))
  · exact .refl ctx

theorem pursues_updateRuntime (path : NodePath) (ctx : Ctx) : Pursues ctx (ctx.updateRuntime path) := by
  unfold Ctx.updateRuntime
  split
  · exact .refl ctx
  · split
    · exact .refl ctx
    · split
      · exact pursues_suspend path ctx
      · rename_i checksum _
        have hreleased : Pursues ctx (ctx.releaseUpstreamHolds path fun _ => false) :=
          pursues_dropQueued path _ ctx
        dsimp only
        split
        · split
          · refine hreleased.trans (pursues_setCurrentRun _ fun ha => ?_)
            cases ha.2.1
          · exact (hreleased.trans (pursues_suspend path _)).trans (pursues_startCellRun path _ _ _)
        · exact hreleased.trans (pursues_startCellRun path _ _ _)

section Derivation

variable {env : Substrate} {outstanding : List LaunchedRun} {posted : List Finished} {ctx : Ctx}

/-- The run that is launched for a new record is outstanding. -/
theorem PursuedInTurn.launch (h : PursuedInTurn outstanding posted ctx) (path : NodePath)
    (node : Node) (key : DemandKey) :
    PursuedInTurn outstanding posted (ctx.launch env path node key) := by
  set record := ctx.launchedRecord env path node key with hrecord
  set counted : Ctx := { ctx with runtime := { ctx.runtime with
    generation := ctx.runtime.generation + 1 } }
  set shown : Ctx := ((counted.setCurrentRun path record).replaceCurrentChecksum env path none).setDerived
    path fun node => { node with state := .computing, blockReason := none, exception := none } with hshown
  have hf : Frame (counted.setCurrentRun path record) shown := by
    refine (frame_replaceCurrentChecksum env path none _).trans (frame_setDerived path ?_ _)
    exact fun _ => rfl
  have hlaunch : ctx.launch env path node key =
      shown.addEffect (.launchRun path (ctx.runtime.generation + 1) key node.ident) := rfl
  have hr : Replaces path ctx.runtime (ctx.launch env path node key).runtime (some record)
      (ctx.runtime.queue path) := replaces_congr (replaces_newRun path record ctx) hf.runtime
  have hcounted : HandsOn ctx (counted.setCurrentRun path record) := .of_eq rfl
  refine h.handsOn ((hcounted.trans hf.handsOn).trans (.addEffect shown _)) fun q r hq ha => ?_
  rcases hr.mem_recordsAt hq with ⟨rfl, hnew | hq⟩ | hq
  · obtain rfl := Option.some.inj hnew
    refine Or.inr (Or.inl ⟨⟨q, ctx.runtime.generation + 1, key, node.ident⟩, ?_, rfl, rfl⟩)
    rw [hlaunch]
    simp [Ctx.addEffect, Effect.launches]
  · exact Or.inl ⟨r, ContextRuntime.mem_recordsAt.mpr (Or.inr hq), rfl, ha⟩
  · exact Or.inl ⟨r, hq, rfl, ha⟩

/-- What a run that is current again has delivered is posted once more. -/
theorem PursuedInTurn.reinstate (h : PursuedInTurn outstanding posted ctx) {path : NodePath}
    {record : RunRecord} (hm : record ∈ ctx.runtime.queue path) :
    PursuedInTurn outstanding posted (ctx.reinstate env path record) := by
  unfold Ctx.reinstate
  dsimp only
  refine PursuedInTurn.pursues ?_ (.of_frame (frame_publishRun env path _ _))
  set queue := (ctx.runtime.queue path).erase record
  set waiting : Ctx := { ctx with runtime := { ctx.runtime with
    supersededRuns := ctx.runtime.supersededRuns.insert path queue } }
  have hr : ∀ posting : Ctx, posting.runtime = waiting.runtime →
      Replaces path ctx.runtime (posting.setCurrentRun path record.reinstated).runtime
        (some record.reinstated) queue := by
    intro posting he
    unfold Ctx.setCurrentRun
    rw [he]
    refine ⟨AList.lookup_insert _, ?_, fun q hq => AList.lookup_insert_ne hq, fun q hq => ?_, le_rfl⟩
    · exact (ContextRuntime.queue_insert ctx.runtime path path _).trans (if_pos rfl)
    · exact (ContextRuntime.queue_insert ctx.runtime path q _).trans (if_neg hq)
  have hposting : ∀ posting : Ctx, posting.runtime = waiting.runtime → HandsOn waiting posting →
      (record.reinstated.Awaited → record.Awaited ∨ Coming
        (outstanding ++ Effect.launches posting.effects) (posted ++ Effect.posts posting.effects) path
          record.generation) →
      PursuedInTurn outstanding posted (posting.setCurrentRun path record.reinstated) := by
    intro posting he hh hrecord
    have hset : HandsOn posting (posting.setCurrentRun path record.reinstated) := .of_eq rfl
    have hwaiting : HandsOn ctx waiting := .of_eq rfl
    refine h.handsOn ((hwaiting.trans hh).trans hset) fun q r hq ha => ?_
    rcases (hr posting he).mem_recordsAt hq with ⟨rfl, hnew | hq⟩ | hq
    · obtain rfl := Option.some.inj hnew
      rcases hrecord ha with hold | hnew
      · exact Or.inl ⟨record, ContextRuntime.mem_recordsAt.mpr (Or.inr hm), rfl, hold⟩
      · exact Or.inr hnew
    · have hold := List.mem_of_mem_erase hq
      exact Or.inl ⟨r, ContextRuntime.mem_recordsAt.mpr (Or.inr hold), rfl, ha⟩
    · exact Or.inl ⟨r, hq, rfl, ha⟩
  split
  · rename_i hdelivered
    refine hposting _ rfl (.addEffect waiting _) fun _ => Or.inr (Or.inr ⟨⟨path, record.generation,
      record.identityChecksum, record.resultChecksum, record.error⟩, ?_, rfl, rfl, ?_⟩)
    · simp [Ctx.addEffect, Effect.posts]
    · unfold Finished.Tells
      simpa using hdelivered
  · rename_i hdelivered
    refine hposting _ rfl (.refl waiting) fun ha => Or.inl ⟨ha.1, ?_, ?_⟩
    · cases hc : record.resultChecksum with
      | none => rfl
      | some c => simp [hc] at hdelivered
    · cases hc : record.error with
      | none => rfl
      | some e => simp [hc] at hdelivered

theorem PursuedInTurn.meetDemand (h : PursuedInTurn outstanding posted ctx) (path : NodePath)
    (node : Node) (key : DemandKey) :
    PursuedInTurn outstanding posted (ctx.meetDemand env path node key) := by
  unfold Ctx.meetDemand
  dsimp only
  have hreleased : PursuedInTurn outstanding posted (ctx.releaseUpstreamHolds path fun record =>
      decide (record.demandKey = some key)) := h.pursues (pursues_dropQueued path _ ctx)
  have hsuspended := hreleased.pursues (pursues_suspend path _)
  split
  · exact hreleased.pursues (.of_frame (frame_publishRun env path _ _))
  · split
    · rename_i record hcandidate
      exact hsuspended.reinstate (List.mem_of_find?_eq_some hcandidate)
    · exact hsuspended.launch path node key

theorem PursuedInTurn.deriveNode (h : PursuedInTurn outstanding posted ctx) (path : NodePath) :
    PursuedInTurn outstanding posted (ctx.deriveNode env path) := by
  replace h := h.pursues (.of_beside (beside_noteDerivation path ctx))
  unfold Ctx.deriveNode
  dsimp only
  generalize ctx.noteDerivation path = ctx at h
  cases ctx.node? path with
  | none => exact h
  | some node =>
    dsimp only
    cases node.body with
    | cell fields =>
      exact h.pursues (.of_beside
        ((beside_report env _ ctx).trans (frame_applyOutcome env path _ _).beside))
    | transformer fields =>
      dsimp only
      unfold Ctx.deriveTransformer
      dsimp only
      have hbeside := (beside_report env (transformerReading env ctx.view path fields) ctx).trans
        (beside_noteEdgeCode path (transformerReading env ctx.view path fields).value.edgeCode _)
      have hpins : ∀ blocked, PursuedInTurn outstanding posted (((ctx.report env
          (transformerReading env ctx.view path fields)).noteEdgeCode path
            (transformerReading env ctx.view path fields).value.edgeCode).writePins path
              (transformerReading env ctx.view path fields).value blocked) := fun blocked =>
        h.pursues (.of_beside (hbeside.trans (frame_writePins path _ _ _).beside))
      split
      · exact ((hpins _).pursues (pursues_suspend path _)).pursues
          (.of_frame (frame_applyOutcome env path _ _))
      · exact ((hpins _).pursues (pursues_suspend path _)).pursues
          (.of_frame (frame_applyOutcome env path _ _))
      · exact (hpins _).meetDemand path node _

theorem PursuedInTurn.deriveGraph (h : PursuedInTurn outstanding posted ctx)
    (sorted : List NodePath) : PursuedInTurn outstanding posted (ctx.deriveGraph env sorted) := by
  have hnodes : ∀ (paths : List NodePath) (ctx : Ctx), PursuedInTurn outstanding posted ctx →
      PursuedInTurn outstanding posted (ctx.deriveNodes env paths) := by
    intro paths
    induction paths with
    | nil => exact fun _ h => h
    | cons path paths ih => exact fun ctx h => ih _ (h.deriveNode path)
  have hupdates : ∀ (paths : List NodePath) (ctx : Ctx),
      Pursues ctx (paths.foldl (fun ctx path => ctx.updateRuntime path) ctx) := by
    intro paths
    induction paths with
    | nil => exact .refl
    | cons path paths ih => exact fun ctx => (pursues_updateRuntime path ctx).trans (ih _)
  have h := hnodes (ctx.graph.derivationOrder sorted) ctx h
  rw [Ctx.deriveGraph_eq]
  generalize ctx.deriveNodes env (ctx.graph.derivationOrder sorted) = derived at h ⊢
  have hbeside := ((frame_syncEdgePinRefholds derived).trans
    (frame_syncAnonymousCurrentRefholds _)).beside.trans (beside_pruneFacts _)
  refine (h.pursues (.of_beside hbeside)).pursues ((hupdates sorted _).trans ?_)
  generalize sorted.foldl (fun ctx path => ctx.updateRuntime path)
    derived.syncEdgePinRefholds.syncAnonymousCurrentRefholds.pruneFacts = updated
  exact (pursues_sync updated).trans (.of_runtime rfl (.of_eq rfl))

end Derivation

/-! ## Messages -/

theorem not_awaited_deliver {record : RunRecord} {identity result : Option Checksum}
    {error : Option Error} (h : result.isSome = true ∨ error.isSome = true) :
    ¬ (record.deliver identity result error).Awaited := by
  rintro ⟨-, hresult, herror⟩
  rcases h with h | h
  · rw [show result = none from hresult] at h
    cases h
  · rw [show error = none from herror] at h
    cases h

section Messages

variable {outstanding outstanding' : List LaunchedRun} {posted posted' : List Finished} {ctx : Ctx}
  {path : NodePath} {generation : Nat} {f : RunRecord → RunRecord}

theorem outcome_updateRun (path : NodePath) (generation : Nat) (f : RunRecord → RunRecord)
    (ctx : Ctx) : (ctx.updateRun path generation f).outcome = ctx.outcome := by
  unfold Ctx.updateRun
  split
  · rfl
  · split <;> rfl

/-- A message about a run makes nothing wait. -/
theorem pursues_updateRun (hg : ∀ r, (f r).generation = r.generation)
    (hf : ∀ r ∈ ctx.runtime.recordsAt path, r.generation = generation → (f r).Awaited → r.Awaited) :
    Pursues ctx (ctx.updateRun path generation f) := by
  refine ⟨fun q r' hr' ha => ?_, .of_eq (outcome_updateRun path generation f ctx)⟩
  rcases mem_recordsAt_updateRun hr' with hr' | ⟨rfl, r, hr, hgeneration, rfl⟩
  · exact ⟨r', hr', rfl, ha⟩
  · exact ⟨r, hr, (hg r).symm, hf r hr hgeneration ha⟩

/-- The record that a message is about has been changed. -/
theorem updated_of_generation
    (hdistinct : ((ctx.runtime.recordsAt path).map RunRecord.generation).Nodup)
    (hqueued : ∀ r ∈ ctx.runtime.queue path, r.phase = .superseded) {r' : RunRecord}
    (hr' : r' ∈ (ctx.updateRun path generation f).runtime.recordsAt path)
    (hgeneration : r'.generation = generation) : ∃ r, r' = f r := by
  unfold Ctx.updateRun at hr'
  cases hc : (ctx.runtime.currentRuns.lookup path).filter
      fun r => decide (r.generation = generation) with
  | some record =>
    rw [hc] at hr'
    obtain ⟨hlookup, hrecord⟩ := Option.filter_eq_some_iff.mp hc
    have hr := replaces_setCurrentRun path (f record) ctx
    rw [show (((ctx.setCurrentRun path (f record)).unsettle).runtime.recordsAt path) = _ from
      hr.recordsAt_self] at hr'
    rcases List.mem_append.mp hr' with hr' | hr'
    · rw [Option.mem_toList] at hr'
      exact ⟨record, (Option.some.inj hr').symm⟩
    · -- the generation is that of the current run
      unfold ContextRuntime.recordsAt at hdistinct
      rw [hlookup, Option.toList_some, List.singleton_append, List.map_cons, List.nodup_cons]
        at hdistinct
      have hmem : r'.generation ∈ (ctx.runtime.queue path).map RunRecord.generation :=
        List.mem_map_of_mem hr'
      rw [hgeneration, ← of_decide_eq_true hrecord] at hmem
      exact absurd hmem hdistinct.1
  | none =>
    have hcurrent : ∀ r, ctx.runtime.currentRuns.lookup path = some r → r.generation ≠ generation := by
      intro r hr he
      rw [hr, Option.filter_some, if_pos (decide_eq_true he)] at hc
      cases hc
    rw [hc] at hr'
    cases hqueue : ctx.runtime.supersededRuns.lookup path with
    | none =>
      rw [hqueue] at hr'
      rcases ContextRuntime.mem_recordsAt.mp hr' with hr' | hr'
      · exact absurd hgeneration (hcurrent r' hr')
      · unfold ContextRuntime.queue at hr'
        rw [hqueue] at hr'
        cases hr'
    | some queue =>
      have hmem : ∀ r ∈ queue, r ∈ ctx.runtime.queue path := fun r hr => by
        unfold ContextRuntime.queue
        rw [hqueue]
        exact hr
      rw [hqueue] at hr'
      dsimp only at hr'
      rcases ContextRuntime.mem_recordsAt.mp hr' with hr' | hr'
      · exact absurd hgeneration (hcurrent r' hr')
      · change r' ∈ ContextRuntime.queue { ctx.runtime with
          supersededRuns := ctx.runtime.supersededRuns.insert path _ } path at hr'
        rw [ContextRuntime.queue_insert, if_pos rfl] at hr'
        obtain ⟨r, hr, rfl⟩ := List.mem_map.mp hr'
        split
        · exact ⟨r, rfl⟩
        · rename_i hnot
          rw [if_neg hnot] at hgeneration
          refine absurd ⟨hgeneration, ?_⟩ hnot
          rw [hqueued r (hmem r hr)]
          decide

theorem generation_of_findRun (h : ctx.findRun path generation = none)
    (hqueued : ∀ r ∈ ctx.runtime.queue path, r.phase = .superseded) :
    ∀ r ∈ ctx.runtime.recordsAt path, r.generation ≠ generation := by
  intro r hr he
  unfold Ctx.findRun at h
  split at h
  · cases h
  · rename_i hc
    rcases ContextRuntime.mem_recordsAt.mp hr with hr | hr
    · rw [hr, Option.filter_some, if_pos (decide_eq_true he)] at hc
      cases hc
    · refine List.find?_eq_none.mp h r hr ?_
      rw [hqueued r hr]
      simp [he]

/-- What is not the run or the message that has been taken is still to come. -/
theorem Coming.less {launches : List LaunchedRun} {posts : List Finished} {told : Prop}
    (hruns : ∀ run ∈ outstanding, run ∈ outstanding' ∨
      (run.path = path ∧ run.generation = generation ∧ told))
    (hposts : ∀ message ∈ posted, message.Tells → message ∈ posted' ∨
      (message.path = path ∧ message.generation = generation ∧ told)) {q : NodePath} {g : Nat}
    (h : Coming (outstanding ++ launches) (posted ++ posts) q g) :
    Coming (outstanding' ++ launches) (posted' ++ posts) q g ∨ (q = path ∧ g = generation ∧ told) := by
  rcases h with ⟨run, hrun, rfl, rfl⟩ | ⟨message, hmessage, rfl, rfl, htells⟩
  · rcases List.mem_append.mp hrun with hrun | hrun
    · rcases hruns run hrun with hleft | htaken
      · exact Or.inl (Or.inl ⟨run, List.mem_append_left _ hleft, rfl, rfl⟩)
      · exact Or.inr htaken
    · exact Or.inl (Or.inl ⟨run, List.mem_append_right _ hrun, rfl, rfl⟩)
  · rcases List.mem_append.mp hmessage with hmessage | hmessage
    · rcases hposts message hmessage htells with hleft | htaken
      · exact Or.inl (Or.inr ⟨message, List.mem_append_left _ hleft, rfl, rfl, htells⟩)
      · exact Or.inr htaken
    · exact Or.inl (Or.inr ⟨message, List.mem_append_right _ hmessage, rfl, rfl, htells⟩)

/-- A run or a message that has been taken is not waited for when its record does not wait. -/
theorem PursuedInTurn.less {told : Prop} (h : PursuedInTurn outstanding posted ctx)
    (hruns : ∀ run ∈ outstanding, run ∈ outstanding' ∨
      (run.path = path ∧ run.generation = generation ∧ told))
    (hposts : ∀ message ∈ posted, message.Tells → message ∈ posted' ∨
      (message.path = path ∧ message.generation = generation ∧ told))
    (hnone : told → ∀ r ∈ ctx.runtime.recordsAt path, r.generation = generation → ¬ r.Awaited) :
    PursuedInTurn outstanding' posted' ctx := by
  intro hopen
  obtain ⟨hpoisoned, hcoming⟩ := h hopen
  refine ⟨hpoisoned, fun q r hr ha => ?_⟩
  rcases (hcoming q r hr ha).less hruns hposts with hleft | ⟨rfl, hg, htold⟩
  · exact hleft
  · exact absurd ha (hnone htold r hr hg)

end Messages

/-! ## Every change of a turn -/

section Operations

variable {env : Substrate} {outstanding : List LaunchedRun} {posted : List Finished} {ctx ctx' : Ctx}

theorem pursues_modifyGraph (f : ContextGraph → ContextGraph) (ctx : Ctx) :
    Pursues ctx (ctx.modifyGraph f) := .of_runtime rfl (.of_eq rfl)

theorem pursues_copyNodes (s t : NodePath) (paths : List NodePath) (ctx : Ctx) :
    Pursues ctx (paths.foldl (Ctx.copyNode env s t) ctx) := by
  induction paths generalizing ctx with
  | nil => exact .refl ctx
  | cons path paths ih =>
    have hsame := sameLedger_copyNode env s t ctx path
    exact (Pursues.of_runtime hsame.runtime hsame.handsOn).trans (ih _)

theorem pursues_dropRuns (path : NodePath) (ctx : Ctx) : Pursues ctx (ctx.dropRuns path) :=
  (Pursues.cancel ctx (ctx.runtime.dropNode path) (shrinks_dropNode _ path)
    (ctx.runtime.recordsAt path)).trans (.of_runtime rfl (.of_eq rfl))

theorem pursues_remove (path : NodePath) (node : Node) (ctx : Ctx) :
    Pursues ctx (((ctx.modifyGraph fun g => g.eraseNode path).releaseNode path node).dropRuns path) :=
  ((pursues_modifyGraph _ ctx).trans (.of_frame (frame_releaseNode path node _))).trans
    (pursues_dropRuns path _)

theorem pursues_dropCurrentRun (path : NodePath) (ctx : Ctx) :
    Pursues ctx (ctx.dropCurrentRun path) :=
  (Pursues.cancel ctx _ (shrinks_dropCurrent _ path) (ctx.runtime.currentRuns.lookup path).toList).trans
    (.of_runtime rfl (.of_eq rfl))

/-- The graph is replaced, and the ledger with it. -/
theorem pursues_replaceGraph (graph : ContextGraph) (ctx : Ctx) :
    Pursues ctx (ctx.replaceGraph env graph) := by
  have hf := ((frame_increfAll (graph.renumber ctx.nextIdent).preparedClaims ctx).trans
    (frame_cancelRuns _ _)).trans (frame_detachSessions
      (ctx.increfAll (graph.renumber ctx.nextIdent).preparedClaims).cancelAllRuns)
  unfold Ctx.replaceGraph
  dsimp only
  generalize (ctx.increfAll (graph.renumber ctx.nextIdent).preparedClaims).cancelAllRuns.detachSessions
    = detached at hf
  have hr := hf.trans (frame_decrefAll (detached.refheldChecksums env) detached)
  refine ⟨fun path r hr' => absurd hr' List.not_mem_nil, hr.handsOn.trans (.of_eq rfl)⟩

end Operations

/-- Every change of a turn pursues the runs that are awaited, when no message makes a run wait. -/
theorem pursued_upheld (env : Substrate) (outstanding : List LaunchedRun) (posted : List Finished) :
    Upheld env (fun ctx path generation f => (∀ r : RunRecord, (f r).generation = r.generation) ∧
        ∀ r ∈ ctx.runtime.recordsAt path, r.generation = generation → (f r).Awaited → r.Awaited)
      (fun _ _ _ => True) (fun _ => True) (fun _ => True) (PursuedInTurn outstanding posted)
      (PursuedInTurn outstanding posted) where
  weaken h := h
  steady hf h := h.pursues (.of_frame hf.toFrame)
  steady_mid hf h := h.pursues (.of_frame hf.toFrame)
  forget _ h := h.pursues (pursues_modifyGraph _ _)
  release _ _ h := h.pursues (.of_frame (frame_replaceCurrentChecksum env _ none _))
  sync h := h.pursues (pursues_sync _)
  create _ _ _ h := h.pursues (.of_runtime rfl (.of_eq rfl))
  append _ _ h := h.pursues (pursues_modifyGraph _ _)
  derive _ _ h := (h.pursues (.of_frame (frame_beginDerivation _))).deriveGraph _
  raised _ _ _ := fun hopen => Bool.noConfusion hopen
  remove path node h := h.pursues (pursues_remove path node _)
  convert path _ h := (h.pursues (pursues_dropRuns path _)).pursues (pursues_modifyGraph _ _)
  started _ hd h := h.pursues (pursues_updateRun hd.1 hd.2)
  delivered _ _ _ hd h := h.pursues (pursues_updateRun hd.1 hd.2)
  dropQueued path dropped h := h.pursues (pursues_dropQueued path dropped _)
  pruneRuns selected h := h.pursues (.cancel _ _ (shrinks_prune _ selected) _)
  dropCurrent path h := h.pursues (pursues_dropCurrentRun path _)
  copyNodes _ _ _ h := (h.pursues (pursues_modifyGraph _ _)).pursues (pursues_copyNodes _ _ _ _)
  copyEdge s t edge _ _ := (keeps_copyEdge_of_graph
    (fun ctx f hc => hc.pursues (pursues_modifyGraph f ctx)) s t edge).conseq (fun _ h => h.1)
      (fun _ _ h => h) fun _ h => h
  load _ h := h.pursues (pursues_replaceGraph _ _)
  close _ _ := fun hopen => Bool.noConfusion hopen

end SeamlessWorkflow
