import SeamlessWorkflow.Proofs.LedgerRuns
import SeamlessWorkflow.Proofs.SettledNodes

/-!
# Every result in the ledger was delivered by its own run

A record with a demand shows a result that a run delivered which had been launched at the same node,
under the same generation and for the same demand. Superseding a run, making it current again and
posting what it had delivered all keep this.
-/

namespace SeamlessWorkflow

open Program Relation

/-! ## Credits -/

/-- A record of the same run that shows no result which the first one does not show. -/
structure RunRecord.ShowsLess (r r' : RunRecord) : Prop where
  generation : r'.generation = r.generation
  demandKey : r'.demandKey = r.demandKey
  result : ∀ c, r'.resultChecksum = some c → r.resultChecksum = some c

/-- A run of this node under this generation and for this demand has delivered this result. -/
def DeliveredFor (delivered : List (LaunchedRun × Checksum)) (path : NodePath) (generation : Nat)
    (key : DemandKey) (c : Checksum) : Prop :=
  ∃ run, (run, c) ∈ delivered ∧ run.path = path ∧ run.generation = generation ∧ run.key = key

/-- The results that records and messages show are credited to runs. `runs` have been launched before
the turn, and `delivered` are the results of all runs so far. -/
structure Credited (runs : List LaunchedRun) (delivered : List (LaunchedRun × Checksum)) (ctx : Ctx) :
    Prop where
  /-- A record under the generation of a run has the demand of this run. -/
  agreed : ∀ run ∈ runs ++ Effect.launches ctx.effects, ∀ r ∈ ctx.runtime.recordsAt run.path,
    r.generation = run.generation → ∀ key, r.demandKey = some key → key = run.key
  earned : ∀ path, ∀ r ∈ ctx.runtime.recordsAt path, ∀ key, r.demandKey = some key →
    ∀ c, r.resultChecksum = some c → DeliveredFor delivered path r.generation key c
  posted : ∀ message ∈ Effect.posts ctx.effects, ∀ c, message.result = some c →
    ∃ run, (run, c) ∈ delivered ∧ run.path = message.path ∧ run.generation = message.generation

/-- Every record with a demand comes from a record of the same run, and nothing is launched or
posted. -/
structure Carries (ctx ctx' : Ctx) : Prop where
  records : ∀ path, ∀ r' ∈ ctx'.runtime.recordsAt path,
    r'.demandKey = none ∨ ∃ r ∈ ctx.runtime.recordsAt path, r.ShowsLess r'
  launches : Effect.launches ctx'.effects ⊆ Effect.launches ctx.effects
  posts : Effect.posts ctx'.effects ⊆ Effect.posts ctx.effects

theorem RunRecord.ShowsLess.refl (r : RunRecord) : r.ShowsLess r := ⟨rfl, rfl, fun _ h => h⟩

theorem RunRecord.ShowsLess.trans {a b c : RunRecord} (h : a.ShowsLess b) (h' : b.ShowsLess c) :
    a.ShowsLess c :=
  ⟨h'.generation.trans h.generation, h'.demandKey.trans h.demandKey,
    fun k hk => h.result k (h'.result k hk)⟩

namespace Carries

theorem trans {a b c : Ctx} (h : Carries a b) (h' : Carries b c) : Carries a c := by
  refine ⟨fun path r'' hr'' => ?_, List.Subset.trans h'.launches h.launches,
    List.Subset.trans h'.posts h.posts⟩
  rcases h'.records path r'' hr'' with hnone | ⟨r', hr', hless⟩
  · exact Or.inl hnone
  · rcases h.records path r' hr' with hnone | ⟨r, hr, hless'⟩
    · exact Or.inl (hless.demandKey.trans hnone)
    · exact Or.inr ⟨r, hr, hless'.trans hless⟩

theorem of_records {ctx ctx' : Ctx}
    (hrecords : ∀ path, ctx'.runtime.recordsAt path ⊆ ctx.runtime.recordsAt path)
    (hl : List.Sublist (Effect.launches ctx'.effects) (Effect.launches ctx.effects))
    (hp : List.Sublist (Effect.posts ctx'.effects) (Effect.posts ctx.effects)) : Carries ctx ctx' :=
  ⟨fun path r hr => Or.inr ⟨r, hrecords path hr, .refl r⟩, hl.subset, hp.subset⟩

theorem of_runtime {ctx ctx' : Ctx} (h : ctx'.runtime = ctx.runtime)
    (hl : List.Sublist (Effect.launches ctx'.effects) (Effect.launches ctx.effects))
    (hp : List.Sublist (Effect.posts ctx'.effects) (Effect.posts ctx.effects)) : Carries ctx ctx' :=
  .of_records (fun _ => by rw [h]; exact List.Subset.refl _) hl hp

theorem of_beside {ctx ctx' : Ctx} (h : Beside ctx ctx') : Carries ctx ctx' :=
  .of_runtime h.runtime h.launches h.posts

theorem of_frame {ctx ctx' : Ctx} (h : Frame ctx ctx') : Carries ctx ctx' := .of_beside h.beside

theorem refl (ctx : Ctx) : Carries ctx ctx := .of_beside (.refl ctx)

/-- Runs are dropped and cancelled. -/
theorem cancel (ctx : Ctx) (rt : ContextRuntime) (hs : Shrinks ctx.runtime rt)
    (records : List RunRecord) : Carries ctx (({ ctx with runtime := rt } : Ctx).cancelRuns records) := by
  have hf := frame_cancelRuns records { ctx with runtime := rt }
  refine .of_records (fun path => ?_) hf.launches hf.posts
  rw [hf.runtime]
  exact (hs.records path).subset

end Carries

theorem Credited.carries {runs : List LaunchedRun} {delivered : List (LaunchedRun × Checksum)}
    {ctx ctx' : Ctx} (h : Credited runs delivered ctx) (hc : Carries ctx ctx') :
    Credited runs delivered ctx' where
  agreed run hrun r' hr' hg key hkey := by
    have hrun' : run ∈ runs ++ Effect.launches ctx.effects :=
      (List.mem_append.mp hrun).elim (List.mem_append_left _)
        fun hm => List.mem_append_right _ (hc.launches hm)
    rcases hc.records run.path r' hr' with hnone | ⟨r, hr, hless⟩
    · cases hnone.symm.trans hkey
    · exact h.agreed run hrun' r hr (hless.generation.symm.trans hg) key
        (hless.demandKey.symm.trans hkey)
  earned path r' hr' key hkey c hresult := by
    rcases hc.records path r' hr' with hnone | ⟨r, hr, hless⟩
    · cases hnone.symm.trans hkey
    · rw [hless.generation]
      exact h.earned path r hr key (hless.demandKey.symm.trans hkey) c (hless.result c hresult)
  posted message hm := h.posted message (hc.posts hm)

/-! ## Derivation -/

theorem carries_suspend (path : NodePath) (ctx : Ctx) : Carries ctx (ctx.suspend path) := by
  unfold Ctx.suspend
  cases hc : ctx.runtime.currentRuns.lookup path with
  | none => exact .refl ctx
  | some current =>
    dsimp only
    set kind : HoldKind := if ctx.upstreamUnresolved path = true then .upstream else .selfEdit
    set superseded : Ctx := ({ ctx with runtime := (ctx.runtime.supersede path kind ctx.now).1 } :
      Ctx).addEffect (.expiryTimer path current.generation) with hsuperseded
    have hr := replaces_supersede hc kind ctx.now
    have hcarries : Carries ctx superseded := by
      refine ⟨fun q r' hr' => Or.inr ?_, ?_, ?_⟩
      · rcases hr.mem_recordsAt hr' with ⟨rfl, hnone | hr'⟩ | hr'
        · cases hnone
        · rcases List.mem_append.mp ((List.drop_sublist _ _).subset hr') with hr' | hr'
          · exact ⟨r', ContextRuntime.mem_recordsAt.mpr (Or.inr hr'), .refl r'⟩
          · obtain rfl := List.mem_singleton.mp hr'
            exact ⟨current, ContextRuntime.mem_recordsAt.mpr (Or.inl hc), rfl, rfl, fun _ h => h⟩
        · exact ⟨r', hr', .refl r'⟩
      · simp [hsuperseded, Ctx.addEffect, Effect.launches]
      · simp [hsuperseded, Ctx.addEffect, Effect.posts]
    exact hcarries.trans (.of_frame (frame_cancelRuns _ superseded))

theorem carries_dropQueued (path : NodePath) (dropped : RunRecord → Bool) (ctx : Ctx) :
    Carries ctx (ctx.dropQueued path dropped) := by
  obtain ⟨rt, records, hs, he⟩ := shrinks_dropQueued path dropped ctx
  rw [he]
  exact .cancel ctx rt hs records

/-- A record without a demand becomes current. -/
theorem carries_setCurrentRun {path : NodePath} {record : RunRecord} (ctx : Ctx)
    (h : record.demandKey = none) : Carries ctx (ctx.setCurrentRun path record) := by
  have hr := replaces_setCurrentRun path record ctx
  refine ⟨fun q r' hr' => ?_, List.Subset.refl _, List.Subset.refl _⟩
  rcases hr.mem_recordsAt hr' with ⟨rfl, hnew | hr'⟩ | hr'
  · obtain rfl := Option.some.inj hnew
    exact Or.inl h
  · exact Or.inr ⟨r', ContextRuntime.mem_recordsAt.mpr (Or.inr hr'), .refl r'⟩
  · exact Or.inr ⟨r', hr', .refl r'⟩

theorem carries_startCellRun (path : NodePath) (node : Node) (checksum : Checksum) (ctx : Ctx) :
    Carries ctx (ctx.startCellRun path node checksum) := by
  set counted : Ctx :=
    { ctx with runtime := { ctx.runtime with generation := ctx.runtime.generation + 1 } }
  have hcounted : Carries ctx counted := .of_records (fun _ => List.Subset.refl _) (.refl _) (.refl _)
  unfold Ctx.startCellRun
  split
  · exact hcounted.trans (carries_setCurrentRun counted rfl)
  · exact hcounted.trans (carries_setCurrentRun counted rfl)
  · exact hcounted.trans (carries_setCurrentRun counted rfl)
  · exact .refl ctx

theorem carries_updateRuntime {start : ContextRuntime} {handed : Handed} {ctx : Ctx}
    (h : InTurn start handed ctx) (path : NodePath) : Carries ctx (ctx.updateRuntime path) := by
  unfold Ctx.updateRuntime
  cases hn : ctx.node? path with
  | none => exact .refl ctx
  | some node =>
    dsimp only
    cases hcell : node.isCell with
    | false => exact .refl ctx
    | true =>
      cases hs : node.currentChecksum with
      | none => exact carries_suspend path ctx
      | some checksum =>
        have hin := h.dropQueued path fun record =>
          decide (record.holdKind = some .upstream) && decide (record.phase ≠ .cancelled) && !false
        have hreleased : Carries ctx (ctx.releaseUpstreamHolds path fun _ => false) :=
          carries_dropQueued path _ ctx
        simp only [Bool.not_true, Bool.false_eq_true, if_false]
        cases hc : (ctx.releaseUpstreamHolds path fun _ => false).runtime.currentRuns.lookup path with
        | none => exact hreleased.trans (carries_startCellRun path node checksum _)
        | some current =>
          dsimp only
          by_cases hi : current.identityChecksum = some checksum
          · rw [if_pos hi]
            -- the current run of a cell is for no demand
            have hl : current.launched = false := by
              by_contra hl
              have hk := hin.kind path current hc (by simpa using hl)
              rw [kind_of_durable (show _ = ctx.durable by simp), hn] at hk
              rw [Option.map_some, hcell] at hk
              cases hk
            have hentered := hin.entered path current (ContextRuntime.mem_recordsAt.mpr (Or.inl hc))
            exact hreleased.trans (carries_setCurrentRun _ (hentered.unlaunched hl).2)
          · rw [if_neg hi]
            exact (hreleased.trans (carries_suspend path _)).trans
              (carries_startCellRun path node checksum _)

section Derivation

variable {env : Substrate} {start : ContextRuntime} {handed : Handed} {runs : List LaunchedRun}
  {delivered : List (LaunchedRun × Checksum)} {ctx : Ctx}

/-- A new run gets a generation that no other run and no other record has. -/
theorem Credited.launch (hin : InTurn start handed ctx) (h : Credited runs delivered ctx)
    (hruns : handed.issued = runs.map LaunchedRun.generation) (path : NodePath) (node : Node)
    (key : DemandKey) : Credited runs delivered (ctx.launch env path node key) := by
  set record := ctx.launchedRecord env path node key with hrecord
  set counted : Ctx := { ctx with runtime := { ctx.runtime with
    generation := ctx.runtime.generation + 1 } }
  set shown : Ctx := ((counted.setCurrentRun path record).replaceCurrentChecksum env path none).setDerived
    path fun node => { node with state := .computing, blockReason := none, exception := none } with hshown
  have hf : Frame (counted.setCurrentRun path record) shown := by
    refine (frame_replaceCurrentChecksum env path none _).trans (frame_setDerived path ?_ _)
    exact fun _ => rfl
  have hlaunch : ctx.launch env path node key =
      shown.addEffect (.launchRun path (ctx.runtime.generation + 1) key node.ident) := rfl
  have hl : Effect.launches (ctx.launch env path node key).effects =
      Effect.launches shown.effects ++ [⟨path, ctx.runtime.generation + 1, key, node.ident⟩] := by
    rw [hlaunch]
    simp [Ctx.addEffect, Effect.launches]
  have hp : Effect.posts (ctx.launch env path node key).effects = Effect.posts shown.effects := by
    rw [hlaunch]
    simp [Ctx.addEffect, Effect.posts]
  have hr : Replaces path ctx.runtime (ctx.launch env path node key).runtime (some record)
      (ctx.runtime.queue path) := replaces_congr (replaces_newRun path record ctx) hf.runtime
  -- what was there before is older
  have hold : ∀ q, ∀ r ∈ (ctx.launch env path node key).runtime.recordsAt q,
      (q = path ∧ r = record) ∨ r ∈ ctx.runtime.recordsAt q := by
    intro q r hq
    rcases hr.mem_recordsAt hq with ⟨rfl, hnew | hq⟩ | hq
    · exact Or.inl ⟨rfl, (Option.some.inj hnew).symm⟩
    · exact Or.inr (ContextRuntime.mem_recordsAt.mpr (Or.inr hq))
    · exact Or.inr hq
  have hrecordsBounded : ∀ q, ∀ r ∈ ctx.runtime.recordsAt q, r.generation ≠ ctx.runtime.generation + 1 :=
    fun q r hq he => by
      have hbounded := (hin.entered q r hq).bounded
      omega
  have hrunsBounded : ∀ run ∈ runs ++ Effect.launches ctx.effects,
      run.generation ≠ ctx.runtime.generation + 1 := by
    intro run hrun he
    have hissued : run.generation ∈ handed.issuedBy ctx := by
      unfold Handed.issuedBy Ctx.launchedRuns
      rw [hruns, ← List.map_append]
      exact List.mem_map_of_mem hrun
    have hbounded := hin.known _ (Or.inl hissued)
    omega
  refine ⟨fun run hrun r hmem hg k hk => ?_, fun q r hmem k hk c hc => ?_, fun message hm => ?_⟩
  · rw [hl, ← List.append_assoc, List.mem_append, List.mem_singleton] at hrun
    rcases hrun with hrun | rfl
    · have hrun : run ∈ runs ++ Effect.launches ctx.effects :=
        (List.mem_append.mp hrun).elim (List.mem_append_left _)
          fun hm => List.mem_append_right _ (hf.launches.subset hm)
      rcases hold _ r hmem with ⟨-, rfl⟩ | hmem
      · exact absurd hg.symm (hrunsBounded run hrun)
      · exact h.agreed run hrun r hmem hg k hk
    · rcases hold _ r hmem with ⟨-, rfl⟩ | hmem
      · exact (Option.some.inj hk).symm
      · exact absurd hg (hrecordsBounded _ r hmem)
  · rcases hold q r hmem with ⟨-, rfl⟩ | hmem
    · cases hc
    · exact h.earned q r hmem k hk c hc
  · rw [hp] at hm
    exact h.posted message (hf.posts.subset hm)

/-- A run that is current again shows nothing, and what it had delivered is posted. -/
theorem Credited.reinstates (h : Credited runs delivered ctx) {ctx' : Ctx} {path : NodePath}
    {record : RunRecord} (hr : Reinstates path record ctx ctx') (hm : record ∈ ctx.runtime.queue path)
    {key : DemandKey} (hk : record.demandKey = some key) : Credited runs delivered ctx' := by
  have hrecord : record ∈ ctx.runtime.recordsAt path := ContextRuntime.mem_recordsAt.mpr (Or.inr hm)
  have hback : ∀ q, ∀ r' ∈ ctx'.runtime.recordsAt q, ∃ r ∈ ctx.runtime.recordsAt q, r.ShowsLess r' := by
    intro q r' hr'
    rcases hr.replaces.mem_recordsAt hr' with ⟨rfl, hnew | hr'⟩ | hr'
    · obtain rfl := Option.some.inj hnew
      exact ⟨record, hrecord, rfl, rfl, fun _ hc => by cases hc⟩
    · have hold := List.mem_of_mem_erase hr'
      exact ⟨r', ContextRuntime.mem_recordsAt.mpr (Or.inr hold), .refl r'⟩
    · exact ⟨r', hr', .refl r'⟩
  refine ⟨fun run hrun r' hr' hg k hk' => ?_, fun q r' hr' k hk' c hc => ?_, fun message hmessage c hc =>
    ?_⟩
  · obtain ⟨r, hr₀, hless⟩ := hback _ r' hr'
    rw [hr.launches] at hrun
    exact h.agreed run hrun r hr₀ (hless.generation.symm.trans hg) k (hless.demandKey.symm.trans hk')
  · obtain ⟨r, hr₀, hless⟩ := hback q r' hr'
    rw [hless.generation]
    exact h.earned q r hr₀ k (hless.demandKey.symm.trans hk') c (hless.result c hc)
  · rcases hr.posts with hp | ⟨-, hp⟩
    · exact h.posted message (hp ▸ hmessage) c hc
    · rw [hp, List.mem_append, List.mem_singleton] at hmessage
      rcases hmessage with hmessage | rfl
      · exact h.posted message hmessage c hc
      · obtain ⟨run, hrun, hpath, hg, -⟩ := h.earned path record hrecord key hk c hc
        exact ⟨run, hrun, hpath, hg⟩

theorem Credited.reinstate (h : Credited runs delivered ctx) {path : NodePath} {record : RunRecord}
    (hm : record ∈ ctx.runtime.queue path) {key : DemandKey} (hk : record.demandKey = some key) :
    Credited runs delivered (ctx.reinstate env path record) := by
  unfold Ctx.reinstate
  dsimp only
  refine Credited.carries ?_ (.of_frame (frame_publishRun env path _ _))
  set queue := (ctx.runtime.queue path).erase record
  have hr : ∀ posting : Ctx, posting.runtime =
      { ctx.runtime with supersededRuns := ctx.runtime.supersededRuns.insert path queue } →
      Replaces path ctx.runtime (posting.setCurrentRun path record.reinstated).runtime
        (some record.reinstated) queue := by
    intro posting he
    unfold Ctx.setCurrentRun
    rw [he]
    refine ⟨AList.lookup_insert _, ?_, fun q hq => AList.lookup_insert_ne hq, fun q hq => ?_, le_rfl⟩
    · exact (ContextRuntime.queue_insert ctx.runtime path path _).trans (if_pos rfl)
    · exact (ContextRuntime.queue_insert ctx.runtime path q _).trans (if_neg hq)
  refine h.reinstates ⟨hr _ ?_, fun q => ?_, ?_, ?_, ?_⟩ hm hk
  · split <;> rfl
  · split <;> rfl
  · split <;> rfl
  · split
    · simp [Ctx.setCurrentRun, Ctx.addEffect, Effect.launches]
    · rfl
  · split
    · rename_i hdelivered
      refine Or.inr ⟨by simpa using hdelivered, ?_⟩
      simp [Ctx.setCurrentRun, Ctx.addEffect, Effect.posts]
    · exact Or.inl rfl

theorem Credited.meetDemand (hin : InTurn start handed ctx) (h : Credited runs delivered ctx)
    (hruns : handed.issued = runs.map LaunchedRun.generation) (path : NodePath) (node : Node)
    (key : DemandKey) : Credited runs delivered (ctx.meetDemand env path node key) := by
  unfold Ctx.meetDemand
  dsimp only
  have hreleased : Credited runs delivered (ctx.releaseUpstreamHolds path fun record =>
      decide (record.demandKey = some key)) := h.carries (carries_dropQueued path _ ctx)
  have hsuspended := hreleased.carries (carries_suspend path _)
  split
  · exact hreleased.carries (.of_frame (frame_publishRun env path _ _))
  · split
    · rename_i record hcandidate
      have hp := List.find?_some hcandidate
      simp only [Bool.and_eq_true, decide_eq_true_eq] at hp
      exact hsuspended.reinstate (List.mem_of_find?_eq_some hcandidate) hp.1.1
    · exact hsuspended.launch ((hin.dropQueued path _).suspend path) hruns path node key

theorem Credited.deriveNode (hin : InTurn start handed ctx) (h : Credited runs delivered ctx)
    (hruns : handed.issued = runs.map LaunchedRun.generation) (path : NodePath) :
    Credited runs delivered (ctx.deriveNode env path) := by
  replace hin := hin.beside (beside_noteDerivation path ctx)
  replace h := h.carries (.of_beside (beside_noteDerivation path ctx))
  unfold Ctx.deriveNode
  dsimp only
  generalize ctx.noteDerivation path = ctx at hin h
  cases ctx.node? path with
  | none => exact h
  | some node =>
    dsimp only
    cases node.body with
    | cell fields =>
      exact h.carries (.of_beside
        ((beside_report env _ ctx).trans (frame_applyOutcome env path _ _).beside))
    | transformer fields =>
      dsimp only
      unfold Ctx.deriveTransformer
      dsimp only
      have hbeside := (beside_report env (transformerReading env ctx.view path fields) ctx).trans
        (beside_noteEdgeCode path (transformerReading env ctx.view path fields).value.edgeCode _)
      have hpins : ∀ blocked, Beside ctx (((ctx.report env
          (transformerReading env ctx.view path fields)).noteEdgeCode path
            (transformerReading env ctx.view path fields).value.edgeCode).writePins path
              (transformerReading env ctx.view path fields).value blocked) := fun blocked =>
        hbeside.trans (frame_writePins path _ _ _).beside
      split
      · exact ((h.carries (.of_beside (hpins _))).carries (carries_suspend path _)).carries
          (.of_frame (frame_applyOutcome env path _ _))
      · exact ((h.carries (.of_beside (hpins _))).carries (carries_suspend path _)).carries
          (.of_frame (frame_applyOutcome env path _ _))
      · exact (h.carries (.of_beside (hpins _))).meetDemand (hin.beside (hpins _)) hruns path node _

theorem Credited.deriveGraph (hin : InTurn start handed ctx) (h : Credited runs delivered ctx)
    (hruns : handed.issued = runs.map LaunchedRun.generation) (sorted : List NodePath) :
    Credited runs delivered (ctx.deriveGraph env sorted) := by
  have hnodes : ∀ (paths : List NodePath) (ctx : Ctx), InTurn start handed ctx →
      Credited runs delivered ctx → InTurn start handed (ctx.deriveNodes env paths) ∧
        Credited runs delivered (ctx.deriveNodes env paths) := by
    intro paths
    induction paths with
    | nil => exact fun _ hin h => ⟨hin, h⟩
    | cons path paths ih =>
      exact fun ctx hin h => ih _ (hin.deriveNode env path) (h.deriveNode hin hruns path)
  have hupdates : ∀ (paths : List NodePath) (ctx : Ctx), InTurn start handed ctx →
      Carries ctx (paths.foldl (fun ctx path => ctx.updateRuntime path) ctx) := by
    intro paths
    induction paths with
    | nil => exact fun ctx _ => .refl ctx
    | cons path paths ih =>
      exact fun ctx hin => (carries_updateRuntime hin path).trans (ih _ (hin.updateRuntime path))
  obtain ⟨hin, h⟩ := hnodes (ctx.graph.derivationOrder sorted) ctx hin h
  rw [Ctx.deriveGraph_eq]
  generalize ctx.deriveNodes env (ctx.graph.derivationOrder sorted) = derived at hin h ⊢
  have hbeside := ((frame_syncEdgePinRefholds derived).trans
    (frame_syncAnonymousCurrentRefholds _)).beside.trans (beside_pruneFacts _)
  refine (h.carries (.of_beside hbeside)).carries
    ((hupdates sorted _ (hin.beside hbeside)).trans ?_)
  generalize sorted.foldl (fun ctx path => ctx.updateRuntime path)
    derived.syncEdgePinRefholds.syncAnonymousCurrentRefholds.pruneFacts = updated
  have htable := tableOnly_sync updated
  refine .of_runtime htable.runtime ?_ ?_
  · show List.Sublist (Effect.launches updated.syncSupersededRefholds.effects) _
    rw [htable.effects]
  · show List.Sublist (Effect.posts updated.syncSupersededRefholds.effects) _
    rw [htable.effects]

end Derivation

/-! ## Messages -/

/-- A message is awaited, and the result that it brings was delivered for the demand of the record. -/
def Handed.Credits (handed : Handed) (delivered : List (LaunchedRun × Checksum)) (ctx : Ctx)
    (path : NodePath) (generation : Nat) (f : RunRecord → RunRecord) : Prop :=
  handed.Delivers ctx path generation f ∧ ∀ r ∈ ctx.runtime.recordsAt path,
    r.generation = generation → ∀ key, r.demandKey = some key → ∀ c, (f r).resultChecksum = some c →
      r.resultChecksum = some c ∨ DeliveredFor delivered path generation key c

/-- The records of a node after one of them has been changed. -/
theorem mem_recordsAt_updateRun {ctx : Ctx} {path q : NodePath} {generation : Nat}
    {f : RunRecord → RunRecord} {r' : RunRecord}
    (h : r' ∈ (ctx.updateRun path generation f).runtime.recordsAt q) :
    r' ∈ ctx.runtime.recordsAt q ∨ (q = path ∧ ∃ r ∈ ctx.runtime.recordsAt path,
      r.generation = generation ∧ r' = f r) := by
  unfold Ctx.updateRun at h
  cases hc : (ctx.runtime.currentRuns.lookup path).filter
      fun r => decide (r.generation = generation) with
  | some record =>
    rw [hc] at h
    obtain ⟨hlookup, hg⟩ := Option.filter_eq_some_iff.mp hc
    have hr := replaces_setCurrentRun path (f record) ctx
    by_cases hq : q = path
    · subst hq
      rw [show (((ctx.setCurrentRun q (f record)).unsettle).runtime.recordsAt q) = _ from
        hr.recordsAt_self] at h
      rcases List.mem_append.mp h with h | h
      · rw [Option.mem_toList] at h
        exact Or.inr ⟨rfl, record, ContextRuntime.mem_recordsAt.mpr (Or.inl hlookup),
          of_decide_eq_true hg, (Option.some.inj h).symm⟩
      · exact Or.inl (ContextRuntime.mem_recordsAt.mpr (Or.inr h))
    · rw [show (((ctx.setCurrentRun path (f record)).unsettle).runtime.recordsAt q) = _ from
        hr.recordsAt_ne hq] at h
      exact Or.inl h
  | none =>
    rw [hc] at h
    cases hqueue : ctx.runtime.supersededRuns.lookup path with
    | none =>
      rw [hqueue] at h
      exact Or.inl h
    | some queue =>
      rw [hqueue] at h
      dsimp only at h
      rw [ContextRuntime.mem_recordsAt] at h
      rcases h with h | h
      · exact Or.inl (ContextRuntime.mem_recordsAt.mpr (Or.inl h))
      · change r' ∈ ContextRuntime.queue { ctx.runtime with
          supersededRuns := ctx.runtime.supersededRuns.insert path _ } q at h
        rw [ContextRuntime.queue_insert] at h
        by_cases hq : q = path
        · rw [if_pos hq] at h
          obtain ⟨r, hr, rfl⟩ := List.mem_map.mp h
          have hmem : r ∈ ctx.runtime.recordsAt path := by
            refine ContextRuntime.mem_recordsAt.mpr (Or.inr ?_)
            unfold ContextRuntime.queue
            rw [hqueue]
            exact hr
          split
          · rename_i hg
            exact Or.inr ⟨hq, r, hmem, hg.1, rfl⟩
          · rw [hq]
            exact Or.inl hmem
        · rw [if_neg hq] at h
          exact Or.inl (ContextRuntime.mem_recordsAt.mpr (Or.inr h))

theorem Credited.updateRun {runs : List LaunchedRun} {delivered : List (LaunchedRun × Checksum)}
    {ctx : Ctx} (h : Credited runs delivered ctx) {handed : Handed} {path : NodePath}
    {generation : Nat} {f : RunRecord → RunRecord} (hf : Delivers f)
    (hd : handed.Credits delivered ctx path generation f) :
    Credited runs delivered (ctx.updateRun path generation f) := by
  have heffects : (ctx.updateRun path generation f).effects = ctx.effects := by
    unfold Ctx.updateRun
    split
    · rfl
    · split <;> rfl
  refine ⟨fun run hrun r' hr' hg key hk => ?_, fun q r' hr' key hk c hc => ?_, fun message hm => ?_⟩
  · rw [heffects] at hrun
    rcases mem_recordsAt_updateRun hr' with hr' | ⟨hq, r, hr, -, rfl⟩
    · exact h.agreed run hrun r' hr' hg key hk
    · exact h.agreed run hrun r (hq ▸ hr) ((hf.same r).generation.symm.trans hg) key
        ((hf.same r).demandKey.symm.trans hk)
  · rcases mem_recordsAt_updateRun hr' with hr' | ⟨rfl, r, hr, rfl, rfl⟩
    · exact h.earned q r' hr' key hk c hc
    · have hk' := (hf.same r).demandKey.symm.trans hk
      rw [(hf.same r).generation]
      rcases hd.2 r hr rfl key hk' c hc with hold | hnew
      · exact h.earned q r hr key hk' c hold
      · exact hnew
  · rw [heffects] at hm
    exact h.posted message hm

/-! ## Every change of a turn -/

section Operations

variable {env : Substrate} {runs : List LaunchedRun} {delivered : List (LaunchedRun × Checksum)}
  {ctx : Ctx}

/-- A change of the graph. -/
theorem Credited.modifyGraph (h : Credited runs delivered ctx) (f : ContextGraph → ContextGraph) :
    Credited runs delivered (ctx.modifyGraph f) :=
  h.carries (.of_runtime rfl (.refl _) (.refl _))

/-- Copying an edge changes the graph only. -/
theorem keeps_copyEdge_of_graph {I : Ctx → Prop}
    (h : ∀ (ctx : Ctx) (f : ContextGraph → ContextGraph), I ctx → I (ctx.modifyGraph f))
    (s t : NodePath) (edge : Edge) : Keeps I (copyEdge env s t edge) := by
  have happend : ∀ edge, Keeps I (appendEdge env edge) := fun edge => by
    refine Triple.get_bind fun ctx => ?_
    cases ctx.graph.registerEdgeSymbols env edge with
    | none => exact Triple.throw fun _ hc => hc.2
    | some r => exact Triple.modify fun ctx' hc => h ctx' _ hc.2
  refine Keeps.ite (happend _) (Keeps.bind (keeps_resolve _) fun source => ?_)
  refine Triple.get_bind fun ctx => ?_
  exact Triple.bind (R := fun _ => I) (Triple.modify fun ctx' hc => h ctx' _ hc.2) fun _ => happend _

theorem carries_copyNodes (s t : NodePath) (paths : List NodePath) (ctx : Ctx) :
    Carries ctx (paths.foldl (Ctx.copyNode env s t) ctx) := by
  induction paths generalizing ctx with
  | nil => exact .refl ctx
  | cons path paths ih =>
    have hsame := sameLedger_copyNode env s t ctx path
    exact (Carries.of_runtime hsame.runtime hsame.launches hsame.posts).trans (ih _)

theorem carries_dropRuns (path : NodePath) (ctx : Ctx) : Carries ctx (ctx.dropRuns path) :=
  (Carries.cancel ctx (ctx.runtime.dropNode path) (shrinks_dropNode _ path)
    (ctx.runtime.recordsAt path)).trans (.of_runtime rfl (.refl _) (.refl _))

theorem carries_remove (path : NodePath) (node : Node) (ctx : Ctx) :
    Carries ctx (((ctx.modifyGraph fun g => g.eraseNode path).releaseNode path node).dropRuns path) := by
  set erased := ctx.modifyGraph fun g => g.eraseNode path
  have hmodified : Carries ctx erased := .of_runtime rfl (.refl _) (.refl _)
  exact (hmodified.trans (.of_frame (frame_releaseNode path node erased))).trans
    (carries_dropRuns path _)

theorem carries_clear {ctx' : Ctx} (hr : ctx'.runtime = { generation := ctx.runtime.generation })
    (hl : List.Sublist (Effect.launches ctx'.effects) (Effect.launches ctx.effects))
    (hp : List.Sublist (Effect.posts ctx'.effects) (Effect.posts ctx.effects)) : Carries ctx ctx' :=
  .of_records (fun path => by
    rw [hr]
    exact ((shrinks_clear ctx.runtime).records path).subset) hl hp

theorem carries_replaceGraph (graph : ContextGraph) (ctx : Ctx) :
    Carries ctx (ctx.replaceGraph env graph) := by
  have hf := ((frame_increfAll (graph.renumber ctx.nextIdent).preparedClaims ctx).trans
    (frame_cancelRuns _ _)).trans (frame_detachSessions
      (ctx.increfAll (graph.renumber ctx.nextIdent).preparedClaims).cancelAllRuns)
  unfold Ctx.replaceGraph
  dsimp only
  generalize (ctx.increfAll (graph.renumber ctx.nextIdent).preparedClaims).cancelAllRuns.detachSessions
    = detached at hf
  have hr := hf.trans (frame_decrefAll (detached.refheldChecksums env) detached)
  have hgeneration : (detached.releaseRefholds env).runtime.generation = ctx.runtime.generation :=
    congrArg ContextRuntime.generation hr.runtime
  refine carries_clear ?_ hr.launches hr.posts
  rw [← hgeneration]
  rfl

theorem carries_dropCurrentRun (path : NodePath) (ctx : Ctx) :
    Carries ctx (ctx.dropCurrentRun path) :=
  (Carries.cancel ctx _ (shrinks_dropCurrent _ path) (ctx.runtime.currentRuns.lookup path).toList).trans
    (.of_runtime rfl (.refl _) (.refl _))

end Operations

/-- The credits survive every change of a turn, together with the ledger. -/
theorem credits_upheld (env : Substrate) (start : ContextRuntime) (handed : Handed)
    {runs : List LaunchedRun} (delivered : List (LaunchedRun × Checksum))
    (hruns : handed.issued = runs.map LaunchedRun.generation) :
    Upheld env (handed.Credits delivered) (Ctx.AssignSparesRuns env) (fun _ => True)
      (fun d => d.view.graph.EndsAtParts) (fun ctx => InTurn start handed ctx ∧ Credited runs delivered ctx)
      (fun ctx => BetweenSteps start handed ctx ∧ Credited runs delivered ctx) := by
  have hbase := ledger_upheld env start handed
  exact {
    weaken h := ⟨hbase.weaken h.1, h.2⟩
    steady hf h := ⟨hbase.steady hf h.1, h.2.carries (.of_frame hf.toFrame)⟩
    steady_mid hf h := ⟨hbase.steady_mid hf h.1, h.2.carries (.of_frame hf.toFrame)⟩
    forget path h := ⟨hbase.forget path h.1, h.2.modifyGraph _⟩
    release hassigns hkind h := ⟨hbase.release hassigns hkind h.1,
      h.2.carries (.of_frame (frame_replaceCurrentChecksum env _ none _))⟩
    sync {ctx} h := by
      have htable := tableOnly_sync ctx
      refine ⟨hbase.sync h.1, h.2.carries (.of_runtime htable.runtime ?_ ?_)⟩
      · rw [htable.effects]
      · rw [htable.effects]
    create path body hnew h := ⟨hbase.create path body hnew h.1,
      h.2.carries (.of_runtime rfl (.refl _) (.refl _))⟩
    append hchain hr h := ⟨hbase.append hchain hr h.1, h.2.modifyGraph _⟩
    derive {ctx sorted} hsorted hparts h := by
      have hf := frame_beginDerivation ctx
      exact ⟨hbase.derive hsorted hparts h.1,
        (h.2.carries (.of_frame hf)).deriveGraph (h.1.1.beside hf.beside) hruns sorted⟩
    raised hraised hparts _ := by
      obtain ⟨-, d, hd, hsearch⟩ := exists_raising hraised
      exact absurd hsearch (hparts d hd).answers
    remove path node h := ⟨hbase.remove path node h.1, h.2.carries (carries_remove path node _)⟩
    convert path celltype h := ⟨hbase.convert path celltype h.1,
      (h.2.carries (carries_dropRuns path _)).modifyGraph _⟩
    started identity hd h := ⟨hbase.started identity hd.1 h.1,
      h.2.updateRun (delivers_started identity) hd⟩
    delivered identity result error hd h := ⟨hbase.delivered identity result error hd.1 h.1,
      h.2.updateRun (delivers_deliver identity result error) hd⟩
    dropQueued path dropped h := ⟨hbase.dropQueued path dropped h.1,
      h.2.carries (carries_dropQueued path dropped _)⟩
    pruneRuns selected h := ⟨hbase.pruneRuns selected h.1,
      h.2.carries (.cancel _ _ (shrinks_prune _ selected) _)⟩
    dropCurrent path h := ⟨hbase.dropCurrent path h.1, h.2.carries (carries_dropCurrentRun path _)⟩
    copyNodes hassigns hnew hd h := ⟨hbase.copyNodes hassigns hnew hd h.1,
      (h.2.modifyGraph _).carries (carries_copyNodes _ _ _ _)⟩
    copyEdge s t edge h hedge := ((hbase.copyEdge s t edge h.1 hedge).and
      (keeps_copyEdge_of_graph (fun _ f hc => hc.modifyGraph f) s t edge)).conseq
        (fun _ h => ⟨⟨h.1.1, h.2⟩, h.1.2⟩) (fun _ _ h => h) fun _ h => h
    load hl h := ⟨hbase.load hl h.1, h.2.carries (carries_replaceGraph _ _)⟩
    close hl h := ⟨hbase.close hl h.1,
      h.2.carries (carries_clear rfl (List.nil_sublist _) (List.nil_sublist _))⟩ }

end SeamlessWorkflow
