import SeamlessWorkflow.Proofs.LedgerInvariant
import SeamlessWorkflow.Proofs.Holders

/-!
# What a turn has derived

A Context records from what the nodes of its turn have been derived. Only derivation adds to this record.
So an invariant that survives the derivation of a node from some states only is upheld as long as all
that has been derived so far comes from such states.
-/

namespace SeamlessWorkflow

open Program

/-! ## The derivation of a node -/

theorem derivations_report {α : Type} (env : Substrate) (x : Evaluated α) (ctx : Ctx) :
    (ctx.report env x).derivations = ctx.derivations := by
  have loop : ∀ {β : Type} {f : Ctx → β → Ctx} (_ : ∀ ctx b, (f ctx b).derivations = ctx.derivations)
      (bs : List β) (ctx : Ctx), (bs.foldl f ctx).derivations = ctx.derivations := by
    intro β f hf bs
    induction bs with
    | nil => exact fun _ => rfl
    | cons b bs ih => exact fun ctx => (ih _).trans (hf ctx b)
  refine (loop (fun ctx entry => ?_) _ _).trans (loop (fun ctx key => ?_) _ _)
  · rfl
  · unfold Ctx.noteFact
    dsimp only
    split <;> rfl

theorem derivations_noteEdgeCode (path : NodePath) (code : Option Checksum) (ctx : Ctx) :
    (ctx.noteEdgeCode path code).derivations = ctx.derivations := by
  unfold Ctx.noteEdgeCode
  split <;> rfl

theorem derivations_suspend (path : NodePath) (ctx : Ctx) :
    (ctx.suspend path).derivations = ctx.derivations := by
  unfold Ctx.suspend
  split
  · rfl
  · exact (frame_cancelRuns _ _).derivations

theorem derivations_dropQueued (path : NodePath) (dropped : RunRecord → Bool) (ctx : Ctx) :
    (ctx.dropQueued path dropped).derivations = ctx.derivations := by
  unfold Ctx.dropQueued
  split
  · rfl
  · exact (frame_cancelRuns _ _).derivations

theorem derivations_releaseUpstreamHolds (path : NodePath) (keep : RunRecord → Bool) (ctx : Ctx) :
    (ctx.releaseUpstreamHolds path keep).derivations = ctx.derivations :=
  derivations_dropQueued path _ ctx

theorem derivations_reinstate (env : Substrate) (path : NodePath) (record : RunRecord) (ctx : Ctx) :
    (ctx.reinstate env path record).derivations = ctx.derivations := by
  unfold Ctx.reinstate
  dsimp only
  rw [(frame_publishRun env path _ _).derivations]
  show (Ctx.setCurrentRun path _ _).derivations = _
  split <;> rfl

theorem derivations_launch (env : Substrate) (path : NodePath) (node : Node) (key : DemandKey)
    (ctx : Ctx) : (ctx.launch env path node key).derivations = ctx.derivations := by
  unfold Ctx.launch
  dsimp only
  have hset : ∀ (f : Node → Node) (effect : Effect) (ctx : Ctx),
      ((ctx.setDerived path f).addEffect effect).derivations = ctx.derivations := fun _ _ _ => rfl
  rw [hset, (frame_replaceCurrentChecksum env path none _).derivations]
  rfl

theorem derivations_meetDemand (env : Substrate) (path : NodePath) (node : Node) (key : DemandKey)
    (ctx : Ctx) : (ctx.meetDemand env path node key).derivations = ctx.derivations := by
  unfold Ctx.meetDemand
  dsimp only
  split
  · rw [(frame_publishRun env path _ _).derivations, derivations_releaseUpstreamHolds]
  · split
    · rw [derivations_reinstate, derivations_suspend, derivations_releaseUpstreamHolds]
    · rw [derivations_launch, derivations_suspend, derivations_releaseUpstreamHolds]

/-- The derivation of a node is the one that is recorded. -/
theorem derivations_deriveNode (env : Substrate) (ctx : Ctx) (path : NodePath) :
    (ctx.deriveNode env path).derivations = (ctx.noteDerivation path).derivations := by
  unfold Ctx.deriveNode
  dsimp only
  generalize ctx.noteDerivation path = noted
  split
  · rfl
  · split
    · exact (frame_applyOutcome env path _ _).derivations.trans (derivations_report env _ noted)
    · unfold Ctx.deriveTransformer
      dsimp only
      split
      · rw [(frame_applyOutcome env path _ _).derivations, derivations_suspend,
          (frame_writePins path _ _ _).derivations, derivations_noteEdgeCode, derivations_report]
      · rw [(frame_applyOutcome env path _ _).derivations, derivations_suspend,
          (frame_writePins path _ _ _).derivations, derivations_noteEdgeCode, derivations_report]
      · rw [derivations_meetDemand, (frame_writePins path _ _ _).derivations,
          derivations_noteEdgeCode, derivations_report]

/-! ## The derivation of the graph -/

theorem derivations_deriveNodes (env : Substrate) (paths : List NodePath) :
    ∀ ctx : Ctx, ctx.derivations ⊆
      (paths.foldl (fun ctx path => ctx.deriveNode env path) ctx).derivations := by
  induction paths with
  | nil => exact fun _ => List.Subset.refl _
  | cons path paths ih =>
    intro ctx
    refine List.Subset.trans ?_ (ih (ctx.deriveNode env path))
    rw [derivations_deriveNode]
    exact List.subset_cons_self _ _

theorem derivations_startCellRun (path : NodePath) (node : Node) (checksum : Checksum) (ctx : Ctx) :
    (ctx.startCellRun path node checksum).derivations = ctx.derivations := by
  unfold Ctx.startCellRun
  split <;> rfl

theorem derivations_updateRuntime (ctx : Ctx) (path : NodePath) :
    (ctx.updateRuntime path).derivations = ctx.derivations := by
  unfold Ctx.updateRuntime
  split
  · rfl
  · split
    · rfl
    · split
      · exact derivations_suspend path ctx
      · dsimp only
        split
        · split
          · exact derivations_releaseUpstreamHolds path _ ctx
          · rw [derivations_startCellRun, derivations_suspend, derivations_releaseUpstreamHolds]
        · rw [derivations_startCellRun, derivations_releaseUpstreamHolds]

theorem derivations_pruneFacts (ctx : Ctx) : ctx.pruneFacts.derivations = ctx.derivations := by
  have loop : ∀ (keys : List FactKey) (ctx : Ctx),
      (keys.foldl (fun ctx key => ctx.addEffect (.cancelJob key)) ctx).derivations =
        ctx.derivations := by
    intro keys
    induction keys with
    | nil => exact fun _ => rfl
    | cons key keys ih => exact fun ctx => ih _
  exact loop _ _

/-- The derivation of the graph records the derivations of its nodes. -/
theorem derivations_deriveGraph (env : Substrate) (sorted : List NodePath) (ctx : Ctx) :
    (ctx.deriveGraph env sorted).derivations = ((ctx.graph.derivationOrder sorted).foldl
      (fun ctx path => ctx.deriveNode env path) ctx).derivations := by
  have hruns : ∀ (paths : List NodePath) (ctx : Ctx),
      (paths.foldl (fun ctx path => ctx.updateRuntime path) ctx).derivations = ctx.derivations := by
    intro paths
    induction paths with
    | nil => exact fun _ => rfl
    | cons path paths ih => exact fun ctx => (ih _).trans (derivations_updateRuntime ctx path)
  unfold Ctx.deriveGraph
  dsimp only
  rw [show ∀ ctx : Ctx, ctx.syncSupersededRefholds.derivations = ctx.derivations from fun ctx =>
    congrArg (fun outcome => outcome.2.2) (tableOnly_sync ctx).outcome, hruns, derivations_pruneFacts,
    (frame_syncAnonymousCurrentRefholds _).derivations, (frame_syncEdgePinRefholds _).derivations]

theorem derivations_beginDerivation (ctx : Ctx) : ctx.beginDerivation.derivations = ctx.derivations :=
  (frame_beginDerivation ctx).derivations

/-- A derivation that raises has come to a node whose search for a holder does. -/
theorem exists_raising {env : Substrate} {sorted : List NodePath} {ctx raised : Ctx}
    (h : ctx.graphRaises env sorted = some raised) : ctx.derivations ⊆ raised.derivations ∧
      ∃ d ∈ raised.derivations, d.view.graph.feedsNonScratchHolder env d.path = none := by
  obtain ⟨before, path, after, -, h⟩ := Ctx.nodesRaise_eq_some h
  have hbefore := derivations_deriveNodes env before ctx
  generalize before.foldl (fun ctx path => ctx.deriveNode env path) ctx = mid at h hbefore
  obtain ⟨node, fields, code, pins, -, -, -, h⟩ := Ctx.nodeRaises_cases h
  obtain ⟨released, hreleased, hsearch, h⟩ := Ctx.meetDemandRaises_cases h
  have hderivations : released.derivations = (mid.noteDerivation path).derivations := by
    rw [hreleased, derivations_releaseUpstreamHolds, (frame_writePins path _ _ _).derivations,
      derivations_noteEdgeCode, derivations_report]
  have hdurable : released.durable = mid.durable := by
    rw [hreleased]
    simp
  have hraised : raised.derivations = released.derivations := by
    rcases h with rfl | rfl
    · rfl
    · exact derivations_suspend path released
  rw [hraised, hderivations]
  refine ⟨List.Subset.trans hbefore (List.subset_cons_self _ _), _, List.mem_cons_self, ?_⟩
  rw [feedsNonScratchHolder_of_durable hdurable] at hsearch
  exact hsearch

/-! ## Invariants under a condition -/

/-- An invariant, as long as all that has been derived meets a condition. -/
def Given (derives : Derivation → Prop) (I : Ctx → Prop) (ctx : Ctx) : Prop :=
  (∀ d ∈ ctx.derivations, derives d) → I ctx

namespace Given

variable {derives : Derivation → Prop} {I J : Ctx → Prop} {ctx ctx' : Ctx}

theorem step (h : Given derives I ctx) (hd : ctx'.derivations = ctx.derivations)
    (hI : I ctx → J ctx') : Given derives J ctx' := fun hall => hI (h (hd ▸ hall))

end Given

theorem derivations_copyNode (env : Substrate) (s t : NodePath) (ctx : Ctx) (path : NodePath) :
    (ctx.copyNode env s t path).derivations = ctx.derivations := by
  unfold Ctx.copyNode
  split
  · rfl
  · dsimp only
    split
    · exact (frame_increfAll _ _).derivations
    · exact (frame_increfAll _ _).derivations

theorem derivations_copyNodes (env : Substrate) (s t : NodePath) (paths : List NodePath) :
    ∀ ctx : Ctx, (paths.foldl (Ctx.copyNode env s t) ctx).derivations = ctx.derivations := by
  induction paths with
  | nil => exact fun _ => rfl
  | cons path paths ih => exact fun ctx => (ih _).trans (derivations_copyNode env s t ctx path)

theorem derivations_updateRun (path : NodePath) (generation : Nat) (f : RunRecord → RunRecord)
    (ctx : Ctx) : (ctx.updateRun path generation f).derivations = ctx.derivations := by
  unfold Ctx.updateRun
  split
  · rfl
  · split <;> rfl

theorem derivations_replaceGraph (env : Substrate) (graph : ContextGraph) (ctx : Ctx) :
    (ctx.replaceGraph env graph).derivations = ctx.derivations := by
  have hf := ((frame_increfAll (graph.renumber ctx.nextIdent).preparedClaims ctx).trans
    (frame_cancelRuns _ _)).trans (frame_detachSessions
      (ctx.increfAll (graph.renumber ctx.nextIdent).preparedClaims).cancelAllRuns)
  unfold Ctx.replaceGraph
  dsimp only
  generalize (ctx.increfAll (graph.renumber ctx.nextIdent).preparedClaims).cancelAllRuns.detachSessions
    = ctx₁ at hf
  exact (frame_decrefAll (ctx₁.refheldChecksums env) ctx₁).derivations.trans hf.derivations

/-- What is upheld under a condition on the derivations is upheld as long as the condition is met. -/
theorem Upheld.given {env : Substrate}
    {delivers : Ctx → NodePath → Nat → (RunRecord → RunRecord) → Prop}
    {assigns : Ctx → NodePath → AssignValue → Prop} {loads : ContextGraph → Prop}
    {derives : Derivation → Prop} {mid full : Ctx → Prop}
    (h : Upheld env delivers assigns loads derives mid full) :
    Upheld env delivers assigns loads (fun _ => True) (Given derives mid) (Given derives full) where
  weaken hc := hc.step rfl h.weaken
  steady hs hc := hc.step hs.derivations (h.steady hs)
  steady_mid hs hc := hc.step hs.derivations (h.steady_mid hs)
  forget path hc := hc.step rfl (h.forget path)
  release ha hkind hc :=
    hc.step (frame_replaceCurrentChecksum env _ none _).derivations (h.release ha hkind)
  sync hc := hc.step (congrArg (fun outcome => outcome.2.2) (tableOnly_sync _).outcome) h.sync
  create path body hnew hc := hc.step rfl (h.create path body hnew)
  append hchain hr hc := hc.step rfl (h.append hchain hr)
  derive {ctx sorted} hs _ hc hall := by
    have hsub := derivations_deriveNodes env (ctx.beginDerivation.graph.derivationOrder sorted)
      ctx.beginDerivation
    rw [← derivations_deriveGraph, derivations_beginDerivation] at hsub
    exact h.derive hs hall (hc fun d hd => hall d (hsub hd))
  raised {ctx sorted raised} hr _ hc hall := by
    have hsub := (exists_raising hr).1
    rw [derivations_beginDerivation] at hsub
    exact h.raised hr hall (hc fun d hd => hall d (hsub hd))
  remove path node hc := hc.step ((frame_cancelRuns _ _).derivations.trans
    (frame_releaseNode path node _).derivations) (h.remove path node)
  convert path celltype hc := hc.step (frame_cancelRuns _ _).derivations (h.convert path celltype)
  started identity hd hc := hc.step (derivations_updateRun _ _ _ _) (h.started identity hd)
  delivered identity result error hd hc :=
    hc.step (derivations_updateRun _ _ _ _) (h.delivered identity result error hd)
  dropQueued path dropped hc := hc.step (derivations_dropQueued path dropped _) (h.dropQueued path dropped)
  pruneRuns selected hc := hc.step (frame_cancelRuns _ _).derivations (h.pruneRuns selected)
  dropCurrent path hc := hc.step (frame_cancelRuns _ _).derivations (h.dropCurrent path)
  copyNodes ha hnew hd hc := hc.step (derivations_copyNodes env _ _ _ _) (h.copyNodes ha hnew hd)
  copyEdge {ctx} s t edge hc hedge := by
    rintro start ⟨hstart, hsame⟩
    have hderivations := derivations_copyEdge env s t edge start.derivations start rfl
    have hfull : (∀ d ∈ start.derivations, derives d) → _ := fun hall =>
      h.copyEdge s t edge (hc (hsame ▸ hall)) hedge start ⟨hstart hall, hsame⟩
    cases hrun : SeamlessWorkflow.copyEdge env s t edge start with
    | ok a next =>
      rw [hrun] at hderivations hfull
      exact fun hall => hfull (hderivations ▸ hall)
    | error e next =>
      rw [hrun] at hderivations hfull
      exact fun hall => hfull (hderivations ▸ hall)
  load hl hc := hc.step (derivations_replaceGraph env _ _) (h.load hl)
  close hl hc := hc.step ((frame_decrefAll _ _).derivations.trans
    (frame_detachSessions _).derivations) (h.close hl)

/-- What is derived in the turn of an event. -/
def Event.derivations (env : Substrate) (sys : System) (event : Event) : List Derivation :=
  ((sys.step env event).map fun next => next.ctx.derivations).getD []

theorem Event.derivations_eq {env : Substrate} {sys next : System} {event : Event}
    (h : sys.step env event = some next) : event.derivations env sys = next.ctx.derivations := by
  unfold Event.derivations
  rw [h]
  rfl

end SeamlessWorkflow
