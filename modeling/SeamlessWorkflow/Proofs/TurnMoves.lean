import SeamlessWorkflow.Proofs.NamespaceMoves

/-!
# The moves of a turn

Every turn of the controller is a sequence of moves within the limits that its message sets, and so
an invariant of the moves is an invariant of all reachable states.
-/

namespace SeamlessWorkflow

open Program Relation

section Moving

variable {env : Substrate} {lim : Limits} {start : Ctx}

/-! ## Messages -/

theorem moving_updateRun {path : NodePath} {generation : Nat} {f : RunRecord → RunRecord}
    (hd : lim.delivers path generation f) :
    Keeps (Moves env lim start) (modify (·.updateRun path generation f) : M Unit) :=
  moving_modify fun _ => .deliver hd

theorem moving_transformationStarted {path : NodePath} {generation : Nat} {identity : Checksum}
    (hd : lim.delivers path generation fun record =>
      { record with identityChecksum := some identity }) :
    Keeps (Moves env lim start) (transformationStarted env path generation identity) := by
  refine Keeps.bind Keeps.get fun ctx => keeps_onlyIf ?_
  exact Keeps.bind (moving_updateRun hd) fun _ => moving_deriveAll

theorem moving_transformationFinished {path : NodePath} {generation : Nat}
    {identity result : Option Checksum} {error : Option Error}
    (hd : lim.delivers path generation fun record => record.deliver identity result error) :
    Keeps (Moves env lim start)
      (transformationFinished env path generation identity result error) := by
  refine Keeps.bind Keeps.get fun ctx => keeps_onlyIf ?_
  refine Keeps.bind (moving_updateRun hd) fun _ => ?_
  exact Keeps.bind (moving_quiet quiet_syncSupersededRefholds) fun _ => moving_deriveAll

theorem moving_expireRun (path : NodePath) (generation : Nat) :
    Keeps (Moves env lim start) (expireRun path generation) :=
  moving_quiet fun ctx => (quiet_dropQueued path _ ctx).trans (quiet_syncSupersededRefholds _)

theorem quiet_pruneRuns (selected : NodePath → Bool) (ctx : Ctx) :
    Quiet ctx (ctx.pruneRuns selected) := by
  refine Quiet.trans (b := { ctx with runtime := ctx.runtime.prune selected }) ?_
    (quiet_cancelRuns _ _)
  exact .of_eq rfl rfl rfl rfl rfl

theorem moving_prune (path : Option NodePath) : Keeps (Moves env lim start) (prune path) :=
  moving_quiet fun ctx => (quiet_pruneRuns _ ctx).trans (quiet_syncSupersededRefholds _)

theorem outline_clearReadErrors (path : NodePath) (ctx : Ctx) :
    (ctx.setDerived path (Node.mapTransformer fun fields =>
      { fields with pinReadErrors := ∅ })).outline = ctx.outline :=
  funext fun q => outline_updateNode (outline_mapTransformer
    (f := fun fields => { fields with pinReadErrors := ∅ }) fun _ => rfl) ctx.graph path q

theorem node?_clearReadErrors (path : NodePath) (ctx : Ctx) (q : NodePath) :
    (ctx.setDerived path (Node.mapTransformer fun fields =>
      { fields with pinReadErrors := ∅ })).node? q = if q = path then (ctx.node? path).map
        (Node.mapTransformer fun fields => { fields with pinReadErrors := ∅ }) else ctx.node? q :=
  ContextGraph.lookup_updateNode ctx.graph path _ q

theorem essence_clearReadErrors (path : NodePath) (ctx : Ctx) (q : NodePath) :
    ((ctx.setDerived path (Node.mapTransformer fun fields =>
      { fields with pinReadErrors := ∅ })).node? q).map Node.essence =
        (ctx.node? q).map Node.essence := by
  rw [node?_clearReadErrors]
  by_cases hq : q = path
  · rw [if_pos hq, hq, Option.map_map]
    refine congrFun (congrArg Option.map (funext fun node => ?_)) _
    unfold Function.comp Node.mapTransformer Node.essence
    cases h : node.body <;> simp [h]
  · rw [if_neg hq]

/-- The read errors of a node that shows no error are forgotten quietly. -/
theorem quiet_clearReadErrors {path : NodePath} {node : Node} {ctx : Ctx}
    (hnode : ctx.node? path = some node) (herrors : node.errors = []) :
    Quiet ctx (ctx.setDerived path
      (Node.mapTransformer fun fields => { fields with pinReadErrors := ∅ })) := by
  refine ⟨essence_clearReadErrors path ctx, by simp [Ctx.setDerived], rfl, rfl, id, fun _ q => ?_⟩
  by_cases hq : q = path
  · refine .inr ⟨?_, by rw [hq, hnode, Option.map_some, herrors]⟩
    have hpins : (ctx.setDerived path (Node.mapTransformer fun fields =>
        { fields with pinReadErrors := ∅ })).outsideErrors q =
          ⟨(ctx.outsideErrors q).sense, ∅⟩ := by
      unfold Ctx.outsideErrors
      rw [node?_clearReadErrors, if_pos hq, hnode, Option.map_some, Option.map_some]
      refine congrArg (OutsideErrors.mk _) ?_
      obtain ⟨ident, body⟩ := node
      cases body <;> rfl
    exact hpins
  · refine .inl ?_
    unfold Ctx.outsideErrors
    rw [node?_clearReadErrors, if_neg hq]
    rfl

theorem rewires_dropCurrentRun (path : NodePath) (ctx : Ctx) :
    Rewires ctx (ctx.dropCurrentRun path) ctx.outline ctx.graph.edges := by
  have hq := quiet_cancelRuns (ctx.runtime.currentRuns.lookup path).toList
    { ctx with runtime := { ctx.runtime with currentRuns := ctx.runtime.currentRuns.erase path } }
  exact ⟨⟨hq.outline, hq.edges, rfl⟩, hq.reasons⟩

theorem moving_clearException (path : NodePath) :
    Keeps (Moves env lim start) (clearException env path) := by
  refine Keeps.bind Keeps.get fun ctx => keeps_onlyIf ?_
  refine Triple.inspect (inspects_nodeAt path) (fun _ hc => hc) fun node => ?_
  by_cases herrors : node.errors = []
  · -- a node without an error is left as it is
    refine Triple.bind (R := fun _ => Moves env lim start) (Triple.modify fun ctx hc => ?_) fun _ => ?_
    · exact moves_step hc.1 (.quiet (quiet_clearReadErrors hc.2 herrors))
    · unfold onlyIf
      rw [if_neg (not_not.mpr herrors)]
      exact Keeps.pure
  · refine Triple.bind (R := fun _ ctx' => ∃ ctx, Moves env lim start ctx ∧ ctx' = ctx.setDerived path
      (Node.mapTransformer fun fields => { fields with pinReadErrors := ∅ }))
      (Triple.modify fun ctx hc => ⟨ctx, hc.1, rfl⟩) fun _ => ?_
    unfold onlyIf
    rw [if_pos herrors]
    refine Triple.bind (R := fun _ => Moves env lim start) (Triple.modify fun ctx' hc => ?_) fun _ => ?_
    · obtain ⟨ctx, hmoves, rfl⟩ := hc
      exact moves_step hmoves (.edit ⟨⟨outline_clearReadErrors path ctx, by simp [Ctx.setDerived,
        Ctx.forgetFailures, Ctx.unsettle], rfl⟩, keepsReasons_updateNode (fun node _ h =>
          blockReason_mapTransformer (f := fun fields => { fields with pinReadErrors := ∅ }) node ▸ h)
            rfl path rfl⟩)
    refine Keeps.bind (moving_modify fun ctx => .edit (rewires_dropCurrentRun path ctx)) fun _ => ?_
    exact Keeps.bind (moving_modifyNode path (fun _ => rfl) fun _ _ h => h) fun _ => moving_deriveAll

theorem moving_acceptFact (key : FactKey) (value : FactValue) :
    Keeps (Moves env lim start) (acceptFact env key value) := by
  refine Keeps.bind Keeps.get fun ctx => keeps_onlyIf (Keeps.bind ?_ fun _ => moving_deriveAll)
  exact moving_modify fun ctx =>
    .edit ⟨⟨rfl, rfl, rfl⟩, keepsReasons_of_nodes rfl⟩

/-! ## Attachments -/

theorem moving_updateSession (path : NodePath) (driver : String)
    (f : Ctx → MountSession → MountSession) : Keeps (Moves env lim start)
      (modify fun ctx => ctx.updateSession path driver (f ctx) : M Unit) := by
  refine moving_quiet fun ctx => ?_
  unfold Ctx.updateSession
  split
  · exact .refl ctx
  · exact ⟨fun _ => rfl, rfl, rfl, rfl, (fun h => nomatch h), (fun h => nomatch h)⟩

theorem moving_mountSense (path : NodePath) (checksum : Checksum) :
    Keeps (Moves env lim start) (mountSense env path checksum) := by
  refine Keeps.bind (keeps_validateWrite _ _ _) fun _ => ?_
  exact Keeps.bind (keeps_cellAt path) fun _ => moving_setCellRoot _ _ _ _

theorem moving_applyObservation (path : NodePath) (driver : String) (seen : Observation) :
    Keeps (Moves env lim start) (applyObservation env path driver seen) := by
  cases seen with
  | sense c => exact moving_mountSense path c
  | senseNull => exact moving_mountSense path _
  | senseNullError =>
    exact Keeps.bind (moving_mountSense path _) fun _ => moving_updateSession path driver _
  | senseError reason => exact moving_updateSession path driver _
  | clearError => exact moving_updateSession path driver _
  | nothing => exact Keeps.pure

theorem outline_record (attachment : Attachment) (node : Node) :
    (attachment.record node).outline = node.outline := by
  cases attachment <;> rfl

theorem blockReason_record (attachment : Attachment) (node : Node) :
    (attachment.record node).blockReason = node.blockReason := by
  cases attachment <;> rfl

theorem moving_mountAttach (path : NodePath) (attachment : Attachment) (seen : Observation) :
    Keeps (Moves env lim start) (mountAttach env path attachment seen) := by
  refine Keeps.bind (keeps_mountNode path) fun node => Keeps.bind Keeps.get fun ctx => ?_
  refine Keeps.bind (keeps_refuseIf _ _ _) fun _ => ?_
  refine Keeps.bind (keeps_refuseIf _ _ _) fun _ => ?_
  refine Keeps.bind (keeps_refuseWith _) fun _ => ?_
  refine Triple.bind (R := fun _ ctx' => ∃ ctx, Moves env lim start ctx ∧
    ctx' = ctx.modifyGraph fun g => g.updateNode path attachment.record)
    (Triple.modify fun ctx hc => ⟨ctx, hc, rfl⟩) fun _ => ?_
  refine Triple.bind (R := fun _ => Moves env lim start) (Triple.modify fun ctx' hc => ?_) fun _ => ?_
  · obtain ⟨ctx, hmoves, rfl⟩ := hc
    exact moves_step hmoves (.edit ⟨⟨funext fun q => outline_updateNode (outline_record attachment)
      ctx.graph path q, by simp [Ctx.modifyGraph], rfl⟩, keepsReasons_updateNode (fun node _ h =>
        blockReason_record attachment node ▸ h) rfl path rfl⟩)
  exact Keeps.bind (moving_applyObservation path _ seen) fun _ => moving_deriveAll

theorem moving_mountDetach (path : NodePath) (driver : String) :
    Keeps (Moves env lim start) (mountDetach env path driver) := by
  refine Keeps.bind Keeps.get fun ctx => keeps_onlyIf ?_
  exact Keeps.bind (moving_quiet (quiet_detach path driver)) fun _ => moving_deriveAll

theorem moving_mountObserved (path : NodePath) (driver : String) (seen : Observation) :
    Keeps (Moves env lim start) (mountObserved env path driver seen) := by
  refine Keeps.bind Keeps.get fun ctx => keeps_onlyIf (Keeps.tryCatch ?_ fun _ => Keeps.pure)
  exact Keeps.bind (moving_applyObservation path driver seen) fun _ => moving_deriveAll

theorem moving_afterTurn : Keeps (Moves env lim start) (afterTurn env) := by
  refine Keeps.bind Keeps.get fun ctx => keeps_onlyIf ?_
  refine Keeps.bind Keeps.get fun ctx => Keeps.forM fun key _ => ?_
  split
  · exact Keeps.pure
  · exact moving_mountDetach _ _

/-! ## The whole graph -/

theorem quiet_detachSessions (ctx : Ctx) : Quiet ctx ctx.detachSessions :=
  Quiet.foldl (f := fun ctx (key : NodePath × String) => ctx.detach key.1 key.2)
    (fun ctx key => quiet_detach key.1 key.2 ctx) _ ctx

theorem quiet_releaseRefholds (ctx : Ctx) : Quiet ctx (ctx.releaseRefholds env) :=
  (quiet_decrefAll _ ctx).trans (.of_eq rfl rfl rfl rfl rfl)

theorem renumber_edges (g : ContextGraph) (start : Nat) : (g.renumber start).edges = g.edges := by
  have loop : ∀ (entries : List (NodePath × Nat)) (g : ContextGraph),
      (entries.foldl (fun g entry => g.updateNode entry.1 fun node =>
        { node with ident := entry.2 }) g).edges = g.edges := by
    intro entries
    induction entries with
    | nil => exact fun _ => rfl
    | cons entry entries ih => exact fun g => (ih _).trans (by simp)
  exact loop _ g

/-- What a node shows apart from which object it is stays. -/
theorem renumber_map {α : Type} {f : Node → α} (hf : ∀ node ident, f { node with ident } = f node)
    (g : ContextGraph) (start : Nat) (path : NodePath) :
    ((g.renumber start).nodes.lookup path).map f = (g.nodes.lookup path).map f := by
  have loop : ∀ (entries : List (NodePath × Nat)) (g : ContextGraph),
      ((entries.foldl (fun g entry => g.updateNode entry.1 fun node =>
        { node with ident := entry.2 }) g).nodes.lookup path).map f = (g.nodes.lookup path).map f := by
    intro entries
    induction entries with
    | nil => exact fun _ => rfl
    | cons entry entries ih =>
      refine fun g => (ih _).trans ?_
      rw [ContextGraph.lookup_updateNode]
      by_cases hp : path = entry.1
      · rw [if_pos hp, hp, Option.map_map]
        exact congrArg (Option.map · (g.nodes.lookup entry.1)) (funext fun node => hf node entry.2)
      · rw [if_neg hp]
  exact loop _ g

theorem move_replaceGraph {graph : ContextGraph} (hl : lim.loads graph) (ctx : Ctx) :
    Move env lim ctx (ctx.replaceGraph env graph) := by
  have h : Quiet ctx ((ctx.increfAll (graph.renumber ctx.nextIdent).preparedClaims).cancelAllRuns
      |>.detachSessions.releaseRefholds env) :=
    (((quiet_increfAll _ ctx).trans (quiet_cancelRuns _ _)).trans (quiet_detachSessions _)).trans
      (quiet_releaseRefholds _)
  unfold Ctx.replaceGraph
  dsimp only
  generalize ((ctx.increfAll (graph.renumber ctx.nextIdent).preparedClaims).cancelAllRuns
    |>.detachSessions.releaseRefholds env) = ctx' at h
  refine .load hl ⟨rfl, renumber_edges _ _, rfl⟩ (fun path => ?_) fun path => ?_
  · rw [← renumber_map (f := fun node => node.outline.kind) (fun _ _ => rfl) graph ctx.nextIdent path]
    show (((graph.renumber ctx.nextIdent).nodes.lookup path).map Node.outline).map Outline.kind = _
    rw [Option.map_map]
    rfl
  · have hreason := renumber_map (f := Node.blockReason) (fun _ _ => rfl) graph ctx.nextIdent path
    have hbind := congrArg (Option.bind · id) hreason
    rw [Option.bind_map, Option.bind_map] at hbind
    exact hbind

theorem moving_setGraph {graph : ContextGraph} (hl : lim.loads graph)
    (attachments : List (NodePath × Attachment × Observation)) :
    Keeps (Moves env lim start) (setGraph env graph attachments) := by
  refine Keeps.bind (moving_modify (move_replaceGraph hl)) fun _ => ?_
  exact Keeps.bind moving_deriveAll fun _ => Keeps.forM fun entry _ => moving_mountAttach _ _ _

theorem moving_close (hr : lim.removes) : Keeps (Moves env lim start) (close env) := by
  refine moving_modify fun ctx => ?_
  have h := (quiet_detachSessions ctx).trans (@quiet_releaseRefholds env _)
  refine .remove [] hr ⟨⟨?_, ?_, rfl⟩, fun _ _ hreason => nomatch hreason⟩
  · exact funext fun q => by simp [below, Ctx.outline, Ctx.node?, Ctx.modifyGraph]
  · simp [below, Ctx.modifyGraph]

end Moving

/-! ## Turns -/

/-- The end points that a turn connects, apart from whole nodes. -/
def Turn.joins (turn : Turn) (place : Place) : Prop :=
  match turn with
  | .assign path value => value.joins path place
  | .cellOperation path localPath (.endpoint ep) _ _ => place = ep.place ∨ place = ⟨path, localPath⟩
  | .setTransformerCode path (.endpoint ep) => place = ep.place ∨ place = ⟨path, [.key "code"]⟩
  | .setTransformerPin path pin (.endpoint ep) _ _ => place = ep.place ∨ place = ⟨path, [.key pin]⟩
  | _ => False

/-- The paths at which a turn creates a node, apart from copies and loads. -/
def Turn.creates (turn : Turn) (created : NodePath) : Prop :=
  match turn with
  | .assign path (.cell _) => created = path ∨ ∃ i : Nat, created = [.key ("cell" ++ toString i)]
  | .assign path _ => created = path
  | _ => False

/-- Does a turn connect the code of a node that does not exist? -/
def Turn.strays (turn : Turn) (ctx : Ctx) : Prop :=
  match turn with
  | .setTransformerCode path (.endpoint _) => path ∉ ctx.graph.nodes
  | _ => False

/-- The graph that a turn loads. -/
def Turn.loads (env : Substrate) (turn : Turn) (graph : ContextGraph) : Prop :=
  match turn with
  | .setGraph doc _ => prepareGraph env doc = .ok graph
  | _ => False

/-- The edges that a turn adds, with their conversions. -/
def Turn.wires (turn : Turn) (source place : Place) (recipe : EdgeRecipe) : Prop :=
  match turn with
  | .assign path value => value.wires path source place recipe ∨
      ∃ cell, value = .cell cell ∧ ∃ i : Nat, source = ⟨[.key ("cell" ++ toString i)], []⟩ ∧
        recipe = {} ∧ ∃ built, BuilderCell path built ∧ place = ⟨built, []⟩
  | .cellOperation path localPath (.endpoint ep) _ _ =>
    source = ep.place ∧ place = ⟨path, localPath⟩ ∧ recipe = ep.recipe
  | .setTransformerCode path (.endpoint ep) =>
    source = ep.place ∧ place = ⟨path, [.key "code"]⟩ ∧ recipe = ep.recipe
  | .setTransformerPin path pin (.endpoint ep) _ _ =>
    source = ep.place ∧ place = ⟨path, [.key pin]⟩ ∧ recipe = ep.recipe
  | _ => False

/-- The celltypes that a turn gives to nodes that exist. -/
def Turn.types (turn : Turn) (g : ContextGraph) (path : NodePath) (celltype : Celltype) : Prop :=
  match turn with
  | .assign assigned value => path = assigned ∧ value.celltype g = some celltype
  | .setTransformerCode written (.config cfg) => path = written ∧ celltype = cfg.celltypeOf "result"
  | .deleteTransformerPin node pin => path = node ∧ pin = "result" ∧ celltype = .mixed
  | .delete deleted => deleted = path ++ [.key "result"] ∧ celltype = .mixed
  | .publishConfig published _ config => path = published ∧ celltype = config.celltype
  | _ => False

/-- The limits of a turn that starts in a given state. -/
def Turn.limits (env : Substrate) (turn : Turn) (ctx : Ctx) : Limits where
  creates ctx' path := turn.creates path ∧
    (ctx' = ctx ∨ ∃ i : Nat, path = [.key ("cell" ++ toString i)])
  joins place := place.localPath = [] ∨ turn.joins place
  wires := turn.wires
  types := turn.types ctx.graph
  stray := turn.strays ctx
  removes := True
  copies ctx' sourcePrefix targetPrefix :=
    ctx' = ctx ∧ turn = .assign targetPrefix (.subcontext sourcePrefix) ∧
      targetPrefix ∉ ctx.graph.nodes
  loads := turn.loads env
  delivers _ _ _ := False

/-- The limits of a message about a run. -/
def Limits.message (delivers : NodePath → Nat → (RunRecord → RunRecord) → Prop) : Limits where
  creates _ _ := False
  joins _ := False
  wires _ _ _ := False
  types _ _ := False
  stray := False
  removes := False
  copies _ _ _ := False
  loads _ := False
  delivers := delivers

/-- The limits of the message of a finished run. -/
def Limits.delivery (message : Finished) : Limits :=
  .message fun path generation f => path = message.path ∧ generation = message.generation ∧
    f = fun record => record.deliver message.identity message.result message.error

theorem assignLimits (env : Substrate) (path : NodePath) (value : AssignValue) (ctx : Ctx) :
    AssignLimits (Turn.limits env (.assign path value) ctx) ctx path value where
  target := ⟨by cases value <;> first | exact rfl | exact Or.inl rfl, Or.inl rfl⟩
  free cell hv ctx' i := by subst hv; exact ⟨Or.inr ⟨i, rfl⟩, Or.inr ⟨i, rfl⟩⟩
  roots path := Or.inl rfl
  joins place h := Or.inr h
  hidden cell hv i built hbuilt := Or.inr ⟨cell, hv, i, rfl, rfl, built, hbuilt, rfl⟩
  wires source place recipe h := Or.inl h
  types celltype h := ⟨rfl, h⟩
  only q celltype h := h.1
  removes := trivial

/-- A program of moves, from the state in which it starts. -/
theorem moves_of_keeps {env : Substrate} {lim : Limits} {program : M Unit} {ctx : Ctx}
    (h : Keeps (Moves env lim ctx) program) :
    Triple (· = ctx) program (fun _ => Moves env lim ctx) (Moves env lim ctx) :=
  h.conseq (fun _ hc => hc ▸ ReflTransGen.refl) (fun _ _ h => h) fun _ h => h

/-- The operation of a turn stays within its limits. -/
theorem operation_moves (env : Substrate) (turn : Turn) (ctx : Ctx) :
    Triple (· = ctx) (operation env turn) (fun _ => Moves env (turn.limits env ctx) ctx)
      (Moves env (turn.limits env ctx) ctx) := by
  cases turn with
  | assign path value =>
    exact moving_assign (assignLimits env path value ctx) fun _ hv hnew => ⟨rfl, by rw [hv], hnew⟩
  | delete path => exact moves_of_keeps (moving_delete trivial fun node hnode => ⟨hnode, rfl⟩)
  | cellOperation path localPath value detach inputCelltype =>
    refine moves_of_keeps (moving_cellOperation path localPath value detach inputCelltype fun ep hep => ?_)
    subst hep
    exact ⟨Or.inr (Or.inl rfl), Or.inr (Or.inr rfl), rfl, rfl, rfl⟩
  | updateBase path localPath detach =>
    exact moves_of_keeps (Keeps.bind (keeps_updateBase path localPath detach) fun _ => Keeps.pure)
  | commitUpdate path localPath checksum base revision detach =>
    exact moves_of_keeps (Keeps.bind (moving_commitUpdate path localPath checksum base revision detach)
      fun _ => Keeps.pure)
  | cellDeletePath path localPath => exact moves_of_keeps (moving_cellDeletePath path localPath)
  | setTransformerCode path code =>
    cases code with
    | config cfg => exact moves_of_keeps (moving_setTransformerCode_config ⟨rfl, rfl⟩)
    | endpoint ep =>
      have hwires : (Turn.limits env (.setTransformerCode path (.endpoint ep)) ctx).wires ep.place
          ⟨path, [.key "code"]⟩ ep.recipe := ⟨rfl, rfl, rfl⟩
      refine (moving_setTransformerCode_endpoint path ep (Or.inr (Or.inl rfl))
        (Or.inr (Or.inr rfl)) hwires).conseq (fun _ hc => ⟨hc ▸ ReflTransGen.refl, ?_⟩) (fun _ _ h => h)
        fun _ h => h
      by_cases hp : path ∈ ctx.graph.nodes
      · exact Or.inl (hc ▸ hp)
      · exact Or.inr hp
  | setTransformerPin path pin value inputCelltype detach =>
    refine moves_of_keeps (moving_setTransformerPin path pin value inputCelltype detach fun ep hep => ?_)
    subst hep
    exact ⟨Or.inr (Or.inl rfl), Or.inr (Or.inr rfl), rfl, rfl, rfl⟩
  | deleteTransformerPin path pin =>
    exact moves_of_keeps (moving_deleteTransformerPin fun hpin => ⟨rfl, hpin, rfl⟩)
  | recordPinReadError path pin readError =>
    exact moves_of_keeps (moving_recordPinReadError path pin readError)
  | publishConfig path revision config =>
    exact moves_of_keeps (Keeps.bind (moving_publishConfig revision ⟨rfl, rfl⟩) fun _ => Keeps.pure)
  | setGraph doc attachments =>
    refine moves_of_keeps ?_
    delta operation
    dsimp only
    cases hg : prepareGraph env doc with
    | ok graph =>
      have hl : (Turn.limits env (.setGraph doc attachments) ctx).loads graph := hg
      exact moving_setGraph hl attachments
    | error e => exact Keeps.throw
  | mountAttach path attachment seen => exact moves_of_keeps (moving_mountAttach path attachment seen)
  | mountDetach path driver => exact moves_of_keeps (moving_mountDetach path driver)
  | mountObserved path driver seen => exact moves_of_keeps (moving_mountObserved path driver seen)
  | clearException path => exact moves_of_keeps (moving_clearException path)
  | prune path => exact moves_of_keeps (moving_prune path)
  | expireRun path generation => exact moves_of_keeps (moving_expireRun path generation)
  | acceptFact key value => exact moves_of_keeps (moving_acceptFact key value)
  | close => exact moves_of_keeps (moving_close trivial)

/-- The state after a turn that is not refused. -/
theorem runTurn_moves {env : Substrate} {lim : Limits} {α : Type} {program : M α} {now : Nat}
    {missing : List Checksum} {ctx : Ctx} (hp : ctx.poisoned = false)
    (h : Triple (· = ctx.arrive now missing) program
      (fun _ => Moves env lim (ctx.arrive now missing)) (Moves env lim (ctx.arrive now missing))) :
    Moves env lim (ctx.arrive now missing) (ctx.runTurn env program now missing).2 := by
  have h' := h _ rfl
  have hafter : ∀ {ctx'}, Moves env lim (ctx.arrive now missing) ctx' →
      Moves env lim (ctx.arrive now missing) (finalState (afterTurn env ctx')) :=
    fun hm => moving_afterTurn.final hm
  unfold Ctx.runTurn
  rw [hp]
  cases hr : program (ctx.arrive now missing) with
  | ok a ctx' =>
    rw [hr] at h'
    have := hafter h'
    dsimp only
    cases ha : afterTurn env ctx' with
    | ok u ctx'' => rw [ha] at this; exact this
    | error e ctx'' => rw [ha] at this; exact this
  | error e ctx' =>
    rw [hr] at h'
    exact hafter h'

/-! ## Events -/

/-- The limits of an event. -/
def Event.limits (env : Substrate) (event : Event) (ctx : Ctx) : Limits :=
  match event with
  | .turn t _ _ => t.limits env ctx
  | .started run identity _ => .message fun path generation f =>
      path = run.path ∧ generation = run.generation ∧
        f = fun record => { record with identityChecksum := some identity }
  | .finished run identity outcome _ => .delivery (run.message identity outcome)
  | .cancelled _ => .message fun _ _ _ => False
  | .posted message _ => .delivery message

/-- Carry out the effects of a turn that has led to a Context. -/
def System.carry (sys : System) (ctx : Ctx) : System :=
  { sys with
    ctx := ctx
    launched := sys.launched ++ Effect.launches ctx.effects
    outstanding := sys.outstanding ++ Effect.launches ctx.effects
    posted := sys.posted ++ Effect.posts ctx.effects }

/-- A turn leaves the system as it is or carries out what its moves have led to. -/
theorem turn_cases {env : Substrate} {lim : Limits} {α : Type} {program : M α} {now : Nat}
    {missing : List Checksum} {sys : System}
    (h : Triple (· = sys.ctx.arrive now missing) program
      (fun _ => Moves env lim (sys.ctx.arrive now missing))
      (Moves env lim (sys.ctx.arrive now missing))) :
    sys.turn env program now missing = sys ∨ ∃ ctx,
      Moves env lim (sys.ctx.arrive now missing) ctx ∧
        sys.turn env program now missing = sys.carry ctx := by
  by_cases hp : sys.ctx.poisoned = true
  · refine Or.inl ?_
    unfold System.turn Ctx.runTurn
    simp [hp, Effect.launches, Effect.posts]
  · refine Or.inr ⟨_, runTurn_moves (by simpa using hp) h, ?_⟩
    unfold System.turn System.carry
    simp [hp]

/-- A turn that runs no operation of the Context. -/
theorem idle_cases (env : Substrate) (now : Nat) (missing : List Checksum) (sys : System) :
    sys.turn env (pure () : M Unit) now missing = sys ∨ ∃ ctx,
      Moves env (.message fun _ _ _ => False) (sys.ctx.arrive now missing) ctx ∧
        sys.turn env (pure () : M Unit) now missing = sys.carry ctx :=
  turn_cases (moves_of_keeps Keeps.pure)

/-- The system with an event taken out of what is under way. -/
def System.accept (sys : System) : Event → System
  | .turn _ _ _ | .started _ _ _ => sys
  | .finished run _ outcome _ =>
    { sys with
      outstanding := sys.outstanding.erase run
      delivered := sys.delivered ++ run.results outcome }
  | .cancelled run => { sys with outstanding := sys.outstanding.erase run }
  | .posted message _ => { sys with posted := sys.posted.erase message }

/-- The message of a finished run delivers to one record at most. -/
theorem finish_cases (env : Substrate) (message : Finished) (now : Nat) (sys : System) :
    System.finish env message now sys = sys ∨ ∃ ctx,
      Moves env (.delivery message) (sys.ctx.arrive now []) ctx ∧
        System.finish env message now sys = sys.carry ctx := by
  have hd : (Limits.delivery message).delivers message.path message.generation fun record =>
      record.deliver message.identity message.result message.error := ⟨rfl, rfl, rfl⟩
  exact turn_cases (moves_of_keeps (moving_transformationFinished hd))

/-- Every event leaves the Context as it is or makes moves within its limits. -/
theorem step_cases {env : Substrate} {sys next : System} {event : Event}
    (h : sys.step env event = some next) : next = sys.accept event ∨ ∃ now missing ctx,
      Moves env (event.limits env (sys.ctx.arrive now missing)) (sys.ctx.arrive now missing) ctx ∧
        next = (sys.accept event).carry ctx := by
  cases event with
  | turn t now missing =>
    obtain rfl := Option.some.inj h
    rcases turn_cases (operation_moves env t (sys.ctx.arrive now missing)) with he | ⟨ctx, hm, he⟩
    · exact Or.inl he
    · exact Or.inr ⟨now, missing, ctx, hm, he⟩
  | started run identity now =>
    obtain ⟨-, h⟩ := Option.ite_none_right_eq_some.mp h
    obtain rfl := Option.some.inj h
    have hd : (Event.limits env (.started run identity now) (sys.ctx.arrive now [])).delivers
        run.path run.generation fun record => { record with identityChecksum := some identity } :=
      ⟨rfl, rfl, rfl⟩
    rcases turn_cases (moves_of_keeps (moving_transformationStarted hd)) with he | ⟨ctx, hm, he⟩
    · exact Or.inl he
    · exact Or.inr ⟨now, [], ctx, hm, he⟩
  | finished run identity outcome now =>
    obtain ⟨-, h⟩ := Option.ite_none_right_eq_some.mp h
    obtain rfl := Option.some.inj h
    rcases finish_cases env (run.message identity outcome) now
      (sys.accept (.finished run identity outcome now)) with he | ⟨ctx, hm, he⟩
    · exact Or.inl he
    · exact Or.inr ⟨now, [], ctx, hm, he⟩
  | cancelled run =>
    obtain ⟨-, h⟩ := Option.ite_none_right_eq_some.mp h
    exact Or.inl (Option.some.inj h).symm
  | posted message now =>
    obtain ⟨-, h⟩ := Option.ite_none_right_eq_some.mp h
    obtain rfl := Option.some.inj h
    rcases finish_cases env message now (sys.accept (.posted message now)) with
      he | ⟨ctx, hm, he⟩
    · exact Or.inl he
    · exact Or.inr ⟨now, [], ctx, hm, he⟩

/-- An invariant of the Context: it holds at the start, does not look at the turn, and is kept by
every move within the limits of an event that meets the condition. -/
theorem Reachable.ctx_invariant {env : Substrate} {condition : System → Event → Prop}
    {I : Ctx → Prop} (hstart : I {})
    (harrive : ∀ ctx now missing, I ctx → I (ctx.arrive now missing))
    (hmoves : ∀ sys event now missing ctx, condition sys event → I (sys.ctx.arrive now missing) →
      Moves env (event.limits env (sys.ctx.arrive now missing)) (sys.ctx.arrive now missing) ctx →
      I ctx) {sys : System} (h : Reachable env condition sys) : I sys.ctx := by
  refine h.invariant (I := fun sys => I sys.ctx) hstart fun sys next event hi hc hs => ?_
  rcases step_cases hs with rfl | ⟨now, missing, ctx, hm, rfl⟩
  · cases event <;> exact hi
  · exact hmoves sys event now missing ctx hc (harrive _ _ _ hi) hm

end SeamlessWorkflow
