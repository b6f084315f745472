import SeamlessWorkflow.Proofs.DurableProofs

/-!
# What derivation writes into a node

The derivation of a node writes one outcome into it and leaves the other nodes alone. The outcome of
a cell is what its inputs make of it; that of a transformer is a failure, a list of missing inputs,
or what its current run has delivered.
-/

namespace SeamlessWorkflow

/-! ## Steps that leave the graph alone -/

theorem increfAll_eq (cs : List Checksum) (ctx : Ctx) :
    ctx.increfAll cs = { ctx with held := (ctx.increfAll cs).held } := by
  unfold Ctx.increfAll
  induction cs generalizing ctx with
  | nil => rfl
  | cons c cs ih => exact ih (ctx.incref c)

theorem decrefAll_eq (cs : List Checksum) (ctx : Ctx) :
    ctx.decrefAll cs = { ctx with held := (ctx.decrefAll cs).held } := by
  unfold Ctx.decrefAll
  induction cs generalizing ctx with
  | nil => rfl
  | cons c cs ih => exact ih (ctx.decref c)

theorem graph_increfAll (cs : List Checksum) (ctx : Ctx) : (ctx.increfAll cs).graph = ctx.graph := by
  rw [increfAll_eq]

theorem graph_decrefAll (cs : List Checksum) (ctx : Ctx) : (ctx.decrefAll cs).graph = ctx.graph := by
  rw [decrefAll_eq]

theorem graph_noteFact (key : FactKey) (ctx : Ctx) : (ctx.noteFact key).graph = ctx.graph := by
  unfold Ctx.noteFact
  dsimp only
  split <;> rfl

theorem graph_cancelRuns (records : List RunRecord) (ctx : Ctx) :
    (ctx.cancelRuns records).graph = ctx.graph := by
  unfold Ctx.cancelRuns
  induction records generalizing ctx with
  | nil => rfl
  | cons record records ih =>
    rw [List.foldl_cons, ih]
    split <;> rfl

theorem graph_suspend (path : NodePath) (ctx : Ctx) : (ctx.suspend path).graph = ctx.graph := by
  unfold Ctx.suspend
  split
  · rfl
  · exact graph_cancelRuns _ _

theorem graph_dropQueued (path : NodePath) (dropped : RunRecord → Bool) (ctx : Ctx) :
    (ctx.dropQueued path dropped).graph = ctx.graph := by
  unfold Ctx.dropQueued
  split
  · rfl
  · exact graph_cancelRuns _ _

theorem graph_releaseUpstreamHolds (path : NodePath) (keep : RunRecord → Bool) (ctx : Ctx) :
    (ctx.releaseUpstreamHolds path keep).graph = ctx.graph := graph_dropQueued path _ ctx

theorem graph_startCellRun (path : NodePath) (node : Node) (checksum : Checksum) (ctx : Ctx) :
    (ctx.startCellRun path node checksum).graph = ctx.graph := by
  unfold Ctx.startCellRun
  split <;> rfl

theorem graph_updateRuntime (ctx : Ctx) (path : NodePath) :
    (ctx.updateRuntime path).graph = ctx.graph := by
  unfold Ctx.updateRuntime
  split
  · rfl
  · split
    · rfl
    · split
      · exact graph_suspend path ctx
      · dsimp only
        split
        · split
          · exact graph_dropQueued path _ ctx
          · rw [graph_startCellRun, graph_suspend]
            exact graph_dropQueued path _ ctx
        · rw [graph_startCellRun]
          exact graph_dropQueued path _ ctx

theorem graph_pruneFacts (ctx : Ctx) : ctx.pruneFacts.graph = ctx.graph := by
  have loop : ∀ (keys : List FactKey) (ctx : Ctx),
      (keys.foldl (fun ctx key => ctx.addEffect (.cancelJob key)) ctx).graph = ctx.graph := by
    intro keys
    induction keys with
    | nil => exact fun _ => rfl
    | cons key keys ih => exact fun ctx => ih _
  exact loop _ _

theorem graph_updateRun (path : NodePath) (generation : Nat) (f : RunRecord → RunRecord)
    (ctx : Ctx) : (ctx.updateRun path generation f).graph = ctx.graph := by
  unfold Ctx.updateRun
  split
  · rfl
  · split <;> rfl

theorem graph_dropRuns (path : NodePath) (ctx : Ctx) : (ctx.dropRuns path).graph = ctx.graph :=
  graph_cancelRuns _ _

theorem graph_pruneRuns (selected : NodePath → Bool) (ctx : Ctx) :
    (ctx.pruneRuns selected).graph = ctx.graph := graph_cancelRuns _ _

theorem graph_dropCurrentRun (path : NodePath) (ctx : Ctx) :
    (ctx.dropCurrentRun path).graph = ctx.graph := graph_cancelRuns _ _

theorem graph_syncRefholds {κ ν : Type} [DecidableEq κ] [DecidableEq ν] (checksumOf : ν → Checksum)
    (old wanted : AList (fun _ : κ => ν)) (ctx : Ctx) :
    (ctx.syncRefholds checksumOf old wanted).graph = ctx.graph := by
  unfold Ctx.syncRefholds
  rw [graph_decrefAll, graph_increfAll]

theorem graph_noteEdgeCode (path : NodePath) (code : Option Checksum) (ctx : Ctx) :
    (ctx.noteEdgeCode path code).graph = ctx.graph := by
  unfold Ctx.noteEdgeCode
  split <;> rfl

theorem graph_beginDerivation (ctx : Ctx) : ctx.beginDerivation.graph = ctx.graph :=
  graph_syncRefholds ..

theorem graph_syncSupersededRefholds (ctx : Ctx) :
    ctx.syncSupersededRefholds.graph = ctx.graph := by
  have loop : ∀ {α : Type} {f : Ctx → α → Ctx} (_ : ∀ ctx a, (f ctx a).graph = ctx.graph)
      (as : List α) (ctx : Ctx), (as.foldl f ctx).graph = ctx.graph := by
    intro α f hf as
    induction as with
    | nil => exact fun _ => rfl
    | cons a as ih => exact fun ctx => (ih _).trans (hf ctx a)
  unfold Ctx.syncSupersededRefholds
  dsimp only
  refine (loop (fun ctx item => ?_) _ _).trans (loop (fun ctx entry => ?_) _ _)
  · split <;> rfl
  · rfl

/-! ## One node -/

theorem node?_setDerived (path : NodePath) (f : Node → Node) (ctx : Ctx) (q : NodePath) :
    (ctx.setDerived path f).node? q =
      if q = path then (ctx.node? path).map f else ctx.node? q :=
  ctx.graph.lookup_updateNode path f q

theorem node?_of_graph {ctx ctx' : Ctx} (h : ctx'.graph = ctx.graph) (q : NodePath) :
    ctx'.node? q = ctx.node? q := by
  unfold Ctx.node?
  rw [h]

theorem node?_report {α : Type} (env : Substrate) (x : Evaluated α) (ctx : Ctx) (q : NodePath) :
    (ctx.report env x).node? q = ctx.node? q := by
  have loop : ∀ {β : Type} {f : Ctx → β → Ctx} (_ : ∀ ctx b, (f ctx b).node? q = ctx.node? q)
      (bs : List β) (ctx : Ctx), (bs.foldl f ctx).node? q = ctx.node? q := by
    intro β f hf bs
    induction bs with
    | nil => exact fun _ => rfl
    | cons b bs ih => exact fun ctx => (ih _).trans (hf ctx b)
  refine (loop (fun ctx entry => ?_) _ _).trans (loop (fun ctx key => ?_) _ _)
  · simp [Ctx.noteAnonymous, Ctx.node?]
  · exact node?_of_graph (graph_noteFact key ctx) q

/-- A node into which an outcome has been written. -/
def Node.settle (env : Substrate) (outcome : Outcome) (node : Node) : Node :=
  { node with
    state := outcome.state
    blockReason := outcome.blockReason
    currentChecksum := outcome.checksum.map fun c => env.canonicalize c node.celltype
    exception := outcome.exception.getD node.exception }

theorem node?_replaceCurrentChecksum (env : Substrate) (path : NodePath)
    (checksum : Option Checksum) (ctx : Ctx) (q : NodePath) :
    (ctx.replaceCurrentChecksum env path checksum).node? q =
      if q = path then (ctx.node? path).map fun node => { node with
        currentChecksum := checksum.map fun c => env.canonicalize c node.celltype }
      else ctx.node? q := by
  unfold Ctx.replaceCurrentChecksum
  cases hnode : ctx.node? path with
  | none =>
    by_cases hq : q = path
    · rw [if_pos hq, hq, hnode]
      rfl
    · rw [if_neg hq]
  | some node =>
    have hgraph : ∀ (ctx : Ctx) (cs : List Checksum), ((ctx.decrefAll cs).unsettle).graph = ctx.graph :=
      fun ctx cs => graph_decrefAll cs ctx
    dsimp only
    rw [node?_of_graph (hgraph _ _), node?_setDerived,
      node?_of_graph (graph_increfAll _ ctx), node?_of_graph (graph_increfAll _ ctx), hnode]
    rfl

theorem node?_applyOutcome (env : Substrate) (path : NodePath) (outcome : Outcome) (ctx : Ctx)
    (q : NodePath) : (ctx.applyOutcome env path outcome).node? q =
      if q = path then (ctx.node? path).map (Node.settle env outcome) else ctx.node? q := by
  unfold Ctx.applyOutcome
  rw [node?_setDerived, node?_replaceCurrentChecksum, if_pos rfl, node?_replaceCurrentChecksum]
  by_cases hq : q = path
  · rw [if_pos hq, if_pos hq, Option.map_map]
    rfl
  · rw [if_neg hq, if_neg hq, if_neg hq]

/-! ## Transformers -/

/-- What the current run of a transformer has delivered. -/
def RunRecord.outcome (record : RunRecord) : Outcome :=
  match record.error, record.resultChecksum with
  | some e, _ => .failed (some e)
  | none, some c => .complete (some c)
  | none, none => { state := .computing }

theorem publishRun_eq (env : Substrate) (path : NodePath) (record : RunRecord) (ctx : Ctx) :
    ctx.publishRun env path record = ctx.applyOutcome env path record.outcome := by
  unfold Ctx.publishRun RunRecord.outcome
  cases record.error with
  | some e => rfl
  | none =>
    cases record.resultChecksum with
    | some c => rfl
    | none => rfl

/-- The node at a path shows what its current run has delivered. -/
structure Shows (env : Substrate) (path : NodePath) (ctx ctx' : Ctx) (record : RunRecord) : Prop where
  current : ctx'.runtime.currentRuns.lookup path = some record
  node : ∀ q, ctx'.node? q =
    if q = path then (ctx.node? path).map (Node.settle env record.outcome) else ctx.node? q

theorem shows_publishRun {env : Substrate} {path : NodePath} {ctx : Ctx} {record : RunRecord}
    (h : ctx.runtime.currentRuns.lookup path = some record) :
    Shows env path ctx (ctx.publishRun env path record) record := by
  rw [publishRun_eq]
  refine ⟨?_, node?_applyOutcome env path record.outcome ctx⟩
  have hruntime : (ctx.applyOutcome env path record.outcome).runtime = ctx.runtime := by
    unfold Ctx.applyOutcome Ctx.replaceCurrentChecksum
    split
    · rfl
    · dsimp only
      rw [decrefAll_eq, increfAll_eq]
      rfl
  rw [hruntime]
  exact h

theorem Shows.of_graph {env : Substrate} {path : NodePath} {a b c : Ctx} {record : RunRecord}
    (h : Shows env path b c record) (hg : b.graph = a.graph) : Shows env path a c record := by
  refine ⟨h.current, fun q => ?_⟩
  rw [h.node q, node?_of_graph hg, node?_of_graph hg]

/-- A record as it is when its run becomes current again. -/
def RunRecord.reinstated (record : RunRecord) : RunRecord :=
  { record with
    resultChecksum := none, error := none, phase := .running, holdDeadline := none, holdKind := none }

theorem shows_reinstate (env : Substrate) (path : NodePath) (record : RunRecord) (ctx : Ctx) :
    Shows env path ctx (ctx.reinstate env path record) record.reinstated := by
  unfold Ctx.reinstate
  dsimp only
  refine (shows_publishRun (AList.lookup_insert _)).of_graph ?_
  show (Ctx.graph _) = _
  split <;> rfl

/-- The record of a run that is launched for a node. -/
def Ctx.launchedRecord (env : Substrate) (path : NodePath) (node : Node) (key : DemandKey)
    (ctx : Ctx) : RunRecord :=
  { nodePath := path, launched := true, phase := .running, generation := ctx.runtime.generation + 1
    demandKey := some key
    dispatchScratch := some (node.scratch && ctx.graph.feedsNonScratchHolder env path ≠ some true) }

theorem shows_launch (env : Substrate) (path : NodePath) (node : Node) (key : DemandKey) (ctx : Ctx) :
    Shows env path ctx (ctx.launch env path node key) (ctx.launchedRecord env path node key) := by
  set counted : Ctx :=
    { ctx with runtime := { ctx.runtime with generation := ctx.runtime.generation + 1 } }
  have hshows : Shows env path (counted.setCurrentRun path (ctx.launchedRecord env path node key))
      ((counted.setCurrentRun path (ctx.launchedRecord env path node key)).publishRun env path
        (ctx.launchedRecord env path node key)) (ctx.launchedRecord env path node key) :=
    shows_publishRun (AList.lookup_insert _)
  exact ⟨hshows.current, fun q => hshows.node q⟩

/-- What is shown for a demand is a run for this demand. -/
theorem shows_meetDemand (env : Substrate) (path : NodePath) (node : Node) (key : DemandKey)
    (ctx : Ctx) : ∃ record, Shows env path ctx (ctx.meetDemand env path node key) record ∧
      record.demandKey = some key := by
  unfold Ctx.meetDemand
  dsimp only
  set released := ctx.releaseUpstreamHolds path fun record => decide (record.demandKey = some key)
  have hreleased : released.graph = ctx.graph := graph_dropQueued path _ ctx
  cases hshown : ((released.runtime.currentRuns.lookup path).filter fun record =>
      decide (record.demandKey = some key)).filter fun record =>
        !released.forcesValueRun env path record with
  | some record =>
    obtain ⟨hcurrent, -⟩ := Option.filter_eq_some_iff.mp hshown
    obtain ⟨hcurrent, hkey⟩ := Option.filter_eq_some_iff.mp hcurrent
    exact ⟨record, (shows_publishRun hcurrent).of_graph hreleased, of_decide_eq_true hkey⟩
  | none =>
    have hsuspended : (released.suspend path).graph = ctx.graph :=
      (graph_suspend path released).trans hreleased
    dsimp only
    split
    · rename_i record hfound
      have hkey := List.find?_some hfound
      simp only [Bool.and_eq_true, decide_eq_true_eq] at hkey
      exact ⟨record.reinstated, (shows_reinstate env path record _).of_graph hsuspended, hkey.1.1⟩
    · exact ⟨_, (shows_launch env path node key _).of_graph hsuspended, rfl⟩

/-- The outcome of a transformer whose inputs are no demand. -/
def InputVerdict.outcome : InputVerdict → Outcome
  | .failed e => .failed (some e)
  | .pending reasons =>
    { state := (firstReason reasons).nodeState
      blockReason := if (firstReason reasons).nodeState = .blocked then some (.one (firstReason reasons))
        else none }
  | .ready .. => { state := .computing }

/-- The inputs that a transformer reports as blocked. -/
def InputVerdict.blocked : InputVerdict → List (Reason × String)
  | .pending reasons => reasons.filter fun entry => decide (entry.1 ≠ .waiting)
  | _ => []

/-- A transformer into which derivation has written what it found at the pins. -/
def Node.withPins (reading : TransformerReading) : Node → Node :=
  Node.mapTransformer fun fields =>
    { fields with
      pinStates := reading.pins.foldl (fun states entry =>
        states.insert entry.1 entry.2.state) ∅
      pinReadErrors := reading.pins.foldl (fun errors entry =>
        if entry.2.keepsReadError then errors else errors.erase entry.1) fields.pinReadErrors
      blockPins := sortPins (reading.verdict.blocked.map Prod.snd)
      pinBlockReasons := reading.verdict.blocked.foldl (fun reasons entry =>
        Dict.setItem entry.2 entry.1 reasons) [] }

/-- The derivation of a transformer with some reading: the outcome is that of the reading, or that of
the current run, which is one for the demand. -/
structure TransformerDerived (env : Substrate) (path : NodePath) (reading : TransformerReading)
    (fields : TransformerFields) (ctx ctx' : Ctx) : Prop where
  outcome : ∃ outcome, (∀ q, ctx'.node? q =
      if q = path then (ctx.node? path).map fun node => (node.withPins reading).settle env outcome
      else ctx.node? q) ∧
    match reading.verdict with
    | .ready code pins => ∃ record, ctx'.runtime.currentRuns.lookup path = some record ∧
        record.demandKey = some (Ctx.demandKey fields.config code pins) ∧ outcome = record.outcome
    | verdict => outcome = verdict.outcome

theorem node?_writePins (path : NodePath) (reading : TransformerReading) (ctx : Ctx) (q : NodePath) :
    (ctx.writePins path reading reading.verdict.blocked).node? q =
      if q = path then (ctx.node? path).map (Node.withPins reading) else ctx.node? q :=
  node?_setDerived path _ ctx q

theorem transformerDerived (env : Substrate) (path : NodePath) (node : Node)
    (fields : TransformerFields) (ctx : Ctx) :
    TransformerDerived env path (transformerReading env ctx.view path fields).value fields ctx
      (ctx.deriveTransformer env path node fields) := by
  unfold Ctx.deriveTransformer
  dsimp only
  set evaluated := transformerReading env ctx.view path fields
  set noted := (ctx.report env evaluated).noteEdgeCode path evaluated.value.edgeCode
  have hnoted : ∀ q, noted.node? q = ctx.node? q := fun q =>
    (node?_of_graph (graph_noteEdgeCode path _ _) q).trans (node?_report env evaluated ctx q)
  have hpins : ∀ q, (noted.writePins path evaluated.value evaluated.value.verdict.blocked).node? q =
      if q = path then (ctx.node? path).map (Node.withPins evaluated.value) else ctx.node? q := by
    intro q
    rw [node?_writePins, hnoted, hnoted]
  have happlied : ∀ outcome q, (((noted.writePins path evaluated.value
      evaluated.value.verdict.blocked).suspend path).applyOutcome env path outcome).node? q =
      if q = path then (ctx.node? path).map fun node =>
        (node.withPins evaluated.value).settle env outcome else ctx.node? q := by
    intro outcome q
    rw [node?_applyOutcome, node?_of_graph (graph_suspend path _),
      node?_of_graph (graph_suspend path _), hpins, hpins, if_pos rfl]
    by_cases hq : q = path
    · rw [if_pos hq, if_pos hq, Option.map_map]
      rfl
    · rw [if_neg hq, if_neg hq, if_neg hq]
  cases hv : evaluated.value.verdict with
  | failed e =>
    rw [hv] at happlied
    exact ⟨_, happlied _, by rw [hv]; rfl⟩
  | pending reasons =>
    rw [hv] at happlied
    exact ⟨_, happlied _, by rw [hv]; rfl⟩
  | ready code pins =>
    rw [hv] at hpins
    obtain ⟨record, hshows, hkey⟩ := shows_meetDemand env path node
      (Ctx.demandKey fields.config code pins) (noted.writePins path evaluated.value [])
    refine ⟨record.outcome, fun q => ?_, ?_⟩
    · rw [hshows.node]
      have := hpins path
      rw [if_pos rfl] at this
      by_cases hq : q = path
      · rw [if_pos hq, if_pos hq]
        exact (congrArg (Option.map _) this).trans (Option.map_map _ _ _)
      · rw [if_neg hq, if_neg hq]
        exact (hpins q).trans (if_neg hq)
    · rw [hv]
      exact ⟨record, hshows.current, hkey, rfl⟩

/-! ## Cells -/

theorem node?_deriveCell (env : Substrate) (path : NodePath) (fields : CellFields) (ctx : Ctx)
    (q : NodePath) : (ctx.deriveCell env path fields).node? q =
      if q = path then (ctx.node? path).map (Node.settle env (cellOutcome env ctx.view
        ((ctx.sessionsFor path).filterMap MountSession.senseError) path fields).value)
      else ctx.node? q := by
  unfold Ctx.deriveCell
  dsimp only
  rw [node?_applyOutcome, node?_report, node?_report]

/-- The derivation of a node leaves the other nodes alone. -/
theorem node?_deriveNode_of_ne (env : Substrate) (ctx : Ctx) {path q : NodePath} (hq : q ≠ path) :
    (ctx.deriveNode env path).node? q = ctx.node? q := by
  unfold Ctx.deriveNode
  dsimp only
  cases hnode : (ctx.noteDerivation path).node? path with
  | none => rfl
  | some node =>
    cases hbody : node.body with
    | cell fields =>
      simp only [hbody]
      rw [node?_deriveCell, if_neg hq]
      rfl
    | transformer fields =>
      simp only [hbody]
      obtain ⟨outcome, hnodes, -⟩ :=
        (transformerDerived env path node fields (ctx.noteDerivation path)).outcome
      rw [hnodes, if_neg hq]
      rfl

end SeamlessWorkflow
