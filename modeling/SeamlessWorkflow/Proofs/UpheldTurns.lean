import SeamlessWorkflow.Proofs.UpheldOperations

/-!
# Turns keep what is upheld

The messages of runs, attachments and timers, and the turns made of them. `step_upheld` is the result
that an invariant of the whole system rests on.
-/

namespace SeamlessWorkflow

open Program

namespace Upheld

variable {env : Substrate} {delivers : Ctx → NodePath → Nat → (RunRecord → RunRecord) → Prop}
  {assigns : Ctx → NodePath → AssignValue → Prop} {loads : ContextGraph → Prop} {mid full : Ctx → Prop}

section Messages

variable (h : Upheld env delivers assigns loads (fun _ => True) mid full)

include h

theorem transformationStarted {path : NodePath} {generation : Nat} {identity : Checksum} :
    Triple (fun ctx => full ctx ∧ delivers ctx path generation fun record =>
        { record with identityChecksum := some identity })
      (transformationStarted env path generation identity) (fun _ => full) full := by
  refine Triple.get_bind fun ctx => ?_
  refine Triple.ite (fun _ => ?_) fun _ => Triple.pure fun _ hc => hc.2.1
  refine Triple.bind (R := fun _ => full) (Triple.modify fun ctx' hc => ?_) fun _ => h.deriveAll
  exact h.started identity hc.2.2 hc.2.1

theorem transformationFinished {path : NodePath} {generation : Nat}
    {identity result : Option Checksum} {error : Option Error} :
    Triple (fun ctx => full ctx ∧ delivers ctx path generation fun record =>
        record.deliver identity result error)
      (transformationFinished env path generation identity result error) (fun _ => full) full := by
  refine Triple.get_bind fun ctx => ?_
  refine Triple.ite (fun _ => ?_) fun _ => Triple.pure fun _ hc => hc.2.1
  refine Triple.bind (R := fun _ => mid) (Triple.modify fun ctx' hc => ?_) fun _ => ?_
  · exact h.delivered identity result error hc.2.2 hc.2.1
  · exact Triple.bind (R := fun _ => full) (Triple.modify fun ctx hc => h.sync hc) fun _ =>
      h.deriveAll

theorem expireRun (path : NodePath) (generation : Nat) : Keeps full (expireRun path generation) :=
  Keeps.modify fun _ hc => h.sync (h.dropQueued path _ hc)

theorem prune (path : Option NodePath) : Keeps full (prune path) :=
  Keeps.modify fun _ hc => h.sync (h.pruneRuns _ hc)

theorem clearException (path : NodePath) : Keeps full (clearException env path) := by
  refine Keeps.bind Keeps.get fun ctx => keeps_onlyIf ?_
  refine Keeps.bind (keeps_nodeAt path) fun node => ?_
  refine Keeps.bind (h.modifies (steady_setDerived path (steady_mapTransformer _))) fun _ => ?_
  refine keeps_onlyIf (Keeps.bind (h.modifies fun _ => .of_eq rfl rfl rfl rfl) fun _ => ?_)
  refine Keeps.bind (Keeps.modify fun ctx hc => h.dropCurrent path hc) fun _ => ?_
  exact Keeps.bind (Keeps.modify fun ctx hc => h.forget path hc) fun _ => h.deriveAll

theorem acceptFact (key : FactKey) (value : FactValue) : Keeps full (acceptFact env key value) := by
  refine Keeps.bind Keeps.get fun ctx => keeps_onlyIf (Keeps.bind ?_ fun _ => h.deriveAll)
  exact h.modifies fun _ => .of_eq rfl rfl rfl rfl

/-! ## Attachments -/

theorem updateSession (path : NodePath) (driver : String) (f : Ctx → MountSession → MountSession) :
    Keeps full (modify fun ctx => ctx.updateSession path driver (f ctx) : M Unit) := by
  refine h.modifies fun ctx => ?_
  unfold Ctx.updateSession
  split
  · exact .refl ctx
  · exact .of_eq rfl rfl rfl rfl

theorem mountSense (path : NodePath) (checksum : Checksum) :
    Keeps full (mountSense env path checksum) := by
  refine Keeps.bind (keeps_validateWrite _ _ _) fun _ => ?_
  exact Keeps.bind (keeps_cellAt path) fun _ => h.setCellRoot _ _ _ _

theorem applyObservation (path : NodePath) (driver : String) (seen : Observation) :
    Keeps full (applyObservation env path driver seen) := by
  cases seen with
  | sense c => exact h.mountSense path c
  | senseNull => exact h.mountSense path _
  | senseNullError => exact Keeps.bind (h.mountSense path _) fun _ => h.updateSession path driver _
  | senseError reason => exact h.updateSession path driver _
  | clearError => exact h.updateSession path driver _
  | nothing => exact Keeps.pure

theorem mountAttach (path : NodePath) (attachment : Attachment) (seen : Observation) :
    Keeps full (mountAttach env path attachment seen) := by
  refine Keeps.bind (keeps_mountNode path) fun node => Keeps.bind Keeps.get fun ctx => ?_
  refine Keeps.bind (keeps_refuseIf _ _ _) fun _ => Keeps.bind (keeps_refuseIf _ _ _) fun _ => ?_
  refine Keeps.bind (keeps_refuseWith _) fun _ => ?_
  refine Keeps.bind (h.modifyNode path fun node => ?_) fun _ => ?_
  · cases attachment <;> exact ⟨rfl, rfl⟩
  · refine Keeps.bind (h.modifies fun _ => .of_eq rfl rfl rfl rfl) fun _ => ?_
    exact Keeps.bind (h.applyObservation path _ seen) fun _ => h.deriveAll

theorem mountDetach (path : NodePath) (driver : String) : Keeps full (mountDetach env path driver) := by
  refine Keeps.bind Keeps.get fun ctx => keeps_onlyIf ?_
  exact Keeps.bind (h.modifies (steady_detach path driver)) fun _ => h.deriveAll

theorem mountObserved (path : NodePath) (driver : String) (seen : Observation) :
    Keeps full (mountObserved env path driver seen) := by
  refine Keeps.bind Keeps.get fun ctx => keeps_onlyIf (Keeps.tryCatch ?_ fun _ => Keeps.pure)
  exact Keeps.bind (h.applyObservation path driver seen) fun _ => h.deriveAll

theorem afterTurn : Keeps full (afterTurn env) := by
  refine Keeps.bind Keeps.get fun ctx => keeps_onlyIf ?_
  refine Keeps.bind Keeps.get fun ctx => Keeps.forM fun key _ => ?_
  split
  · exact Keeps.pure
  · exact h.mountDetach _ _

theorem setGraph {graph : ContextGraph} (hl : loads graph)
    (attachments : List (NodePath × Attachment × Observation)) :
    Keeps full (setGraph env graph attachments) := by
  refine Keeps.bind (Keeps.modify fun ctx hc => h.load hl hc) fun _ => ?_
  exact Keeps.bind h.deriveAll fun _ => Keeps.forM fun entry _ => h.mountAttach _ _ _

end Messages

end Upheld

/-! ## Turns -/

/-- The Context at the start of an event's turn. -/
def Event.arrive (event : Event) (ctx : Ctx) : Ctx :=
  match event with
  | .turn _ now missing => ctx.arrive now missing
  | .started _ _ now | .finished _ _ _ now | .posted _ now => ctx.arrive now []
  | .cancelled _ => ctx

/-- What an event may do, apart from what every invariant survives. -/
def Event.Admitted (env : Substrate)
    (delivers : Ctx → NodePath → Nat → (RunRecord → RunRecord) → Prop)
    (assigns : Ctx → NodePath → AssignValue → Prop) (loads : ContextGraph → Prop) (ctx : Ctx)
    (event : Event) : Prop :=
  match event with
  | .turn (.assign path value) _ _ => assigns ctx path value
  | .turn (.setGraph doc _) _ _ => ∀ graph, prepareGraph env doc = .ok graph → loads graph
  | .turn .close _ _ => loads {}
  | .turn _ _ _ | .cancelled _ => True
  | .started run identity _ => delivers ctx run.path run.generation fun record =>
      { record with identityChecksum := some identity }
  | .finished run identity outcome _ => delivers ctx run.path run.generation fun record =>
      record.deliver (run.message identity outcome).identity (run.message identity outcome).result
        (run.message identity outcome).error
  | .posted message _ => delivers ctx message.path message.generation fun record =>
      record.deliver message.identity message.result message.error

namespace Upheld

variable {env : Substrate} {delivers : Ctx → NodePath → Nat → (RunRecord → RunRecord) → Prop}
  {assigns : Ctx → NodePath → AssignValue → Prop} {loads : ContextGraph → Prop} {mid full : Ctx → Prop}

theorem operation (h : Upheld env delivers assigns loads (fun _ => True) mid full) (turn : Turn) {now : Nat}
    {missing : List Checksum} {ctx : Ctx} (hc : full ctx)
    (ha : (Event.turn turn now missing).Admitted env delivers assigns loads ctx) :
    Triple (· = ctx) (operation env turn) (fun _ => full) full := by
  have keeps : ∀ {program : M Unit}, Keeps full program →
      Triple (· = ctx) program (fun _ => full) full := fun hk =>
    hk.conseq (fun _ he => he ▸ hc) (fun _ _ h => h) fun _ h => h
  cases turn with
  | assign path value =>
    refine (h.assign path value).conseq (fun ctx' he => ?_) (fun _ _ h => h) fun _ h => h
    subst he
    exact ⟨hc, ha⟩
  | delete path => exact keeps (h.delete path)
  | cellOperation path localPath value detach inputCelltype =>
    exact keeps (h.cellOperation path localPath value detach inputCelltype)
  | updateBase path localPath detach =>
    exact keeps (Keeps.bind (keeps_updateBase path localPath detach) fun _ => Keeps.pure)
  | commitUpdate path localPath checksum base revision detach =>
    exact keeps (Keeps.bind (h.commitUpdate path localPath checksum base revision detach)
      fun _ => Keeps.pure)
  | cellDeletePath path localPath => exact keeps (h.cellDeletePath path localPath)
  | setTransformerCode path code => exact keeps (h.setTransformerCode path code)
  | setTransformerPin path pin value inputCelltype detach =>
    exact keeps (h.setTransformerPin path pin value inputCelltype detach)
  | deleteTransformerPin path pin => exact keeps (h.deleteTransformerPin path pin)
  | recordPinReadError path pin readError => exact keeps (h.recordPinReadError path pin readError)
  | publishConfig path revision config =>
    exact keeps (Keeps.bind (h.publishConfig path revision config) fun _ => Keeps.pure)
  | setGraph doc attachments =>
    delta SeamlessWorkflow.operation
    dsimp only
    cases hg : prepareGraph env doc with
    | ok graph => exact keeps (h.setGraph (ha graph hg) attachments)
    | error e => exact keeps Keeps.throw
  | mountAttach path attachment seen => exact keeps (h.mountAttach path attachment seen)
  | mountDetach path driver => exact keeps (h.mountDetach path driver)
  | mountObserved path driver seen => exact keeps (h.mountObserved path driver seen)
  | clearException path => exact keeps (h.clearException path)
  | prune path => exact keeps (h.prune path)
  | expireRun path generation => exact keeps (h.expireRun path generation)
  | acceptFact key value => exact keeps (h.acceptFact key value)
  | close => exact keeps (Triple.of_final fun ctx hc => h.close ha hc)

theorem runTurn (h : Upheld env delivers assigns loads (fun _ => True) mid full) {α : Type} {program : M α}
    {now : Nat} {missing : List Checksum} {ctx : Ctx} (hp : ctx.poisoned = false)
    (hprogram : Triple (· = ctx.arrive now missing) program (fun _ => full) full) :
    full (ctx.runTurn env program now missing).2 := by
  have hrun := hprogram _ rfl
  have hafter : ∀ {ctx'}, full ctx' → full (finalState (SeamlessWorkflow.afterTurn env ctx')) :=
    fun hc => h.afterTurn.final hc
  unfold Ctx.runTurn
  rw [hp]
  cases hr : program (ctx.arrive now missing) with
  | ok a ctx' =>
    rw [hr] at hrun
    have hfinal := hafter hrun
    dsimp only
    cases ha : SeamlessWorkflow.afterTurn env ctx' with
    | ok u ctx'' => rw [ha] at hfinal; exact hfinal
    | error e ctx'' => rw [ha] at hfinal; exact hfinal
  | error e ctx' =>
    rw [hr] at hrun
    exact hafter hrun

/-- The controller takes the message, and carries out the effects of the turn. -/
theorem turn_open (h : Upheld env delivers assigns loads (fun _ => True) mid full) {α : Type} {program : M α}
    {now : Nat} {missing : List Checksum} {sys : System} (hp : sys.ctx.poisoned = false)
    (hprogram : Triple (· = sys.ctx.arrive now missing) program (fun _ => full) full) :
    ∃ ctx, full ctx ∧ sys.turn env program now missing = sys.carry ctx := by
  refine ⟨_, h.runTurn hp hprogram, ?_⟩
  unfold System.turn System.carry
  simp [hp]

theorem turn (h : Upheld env delivers assigns loads (fun _ => True) mid full) {α : Type} {program : M α} {now : Nat}
    {missing : List Checksum} {sys : System}
    (hprogram : Triple (· = sys.ctx.arrive now missing) program (fun _ => full) full) :
    sys.turn env program now missing = sys ∨
      ∃ ctx, full ctx ∧ sys.turn env program now missing = sys.carry ctx := by
  by_cases hp : sys.ctx.poisoned = true
  · refine Or.inl ?_
    unfold System.turn Ctx.runTurn
    simp [hp, Effect.launches, Effect.posts]
  · exact Or.inr (h.turn_open (by simpa using hp) hprogram)

/-- Every event leaves the Context as it is or leads to one in which the invariant holds. -/
theorem step (h : Upheld env delivers assigns loads (fun _ => True) mid full) {sys next : System} {event : Event}
    (hc : full (event.arrive sys.ctx)) (hstep : sys.step env event = some next)
    (ha : event.Admitted env delivers assigns loads (event.arrive sys.ctx)) :
    next = sys.accept event ∨ ∃ ctx, full ctx ∧ next = (sys.accept event).carry ctx := by
  have finish : ∀ (message : Finished) (now : Nat) (sys' : System), sys'.ctx = sys.ctx →
      full (sys.ctx.arrive now []) →
      delivers (sys.ctx.arrive now []) message.path message.generation (fun record =>
        record.deliver message.identity message.result message.error) →
      System.finish env message now sys' = sys' ∨
        ∃ ctx, full ctx ∧ System.finish env message now sys' = sys'.carry ctx := by
    intro message now sys' he hfull hd
    refine h.turn (h.transformationFinished.conseq (fun ctx hctx => ?_) (fun _ _ h => h) fun _ h => h)
    subst hctx
    rw [he]
    exact ⟨hfull, hd⟩
  cases event with
  | turn t now missing =>
    obtain rfl := Option.some.inj hstep
    exact h.turn (h.operation t hc ha)
  | started run identity now =>
    obtain ⟨-, hstep⟩ := Option.ite_none_right_eq_some.mp hstep
    obtain rfl := Option.some.inj hstep
    refine h.turn (h.transformationStarted.conseq (fun ctx hctx => ?_) (fun _ _ h => h) fun _ h => h)
    subst hctx
    exact ⟨hc, ha⟩
  | finished run identity outcome now =>
    obtain ⟨-, hstep⟩ := Option.ite_none_right_eq_some.mp hstep
    obtain rfl := Option.some.inj hstep
    have hpath : (run.message identity outcome).path = run.path := by cases outcome <;> rfl
    have hgeneration : (run.message identity outcome).generation = run.generation := by
      cases outcome <;> rfl
    refine finish _ now (sys.accept (.finished run identity outcome now)) rfl hc ?_
    rw [hpath, hgeneration]
    exact ha
  | cancelled run =>
    obtain ⟨-, hstep⟩ := Option.ite_none_right_eq_some.mp hstep
    exact Or.inl (Option.some.inj hstep).symm
  | posted message now =>
    obtain ⟨-, hstep⟩ := Option.ite_none_right_eq_some.mp hstep
    obtain rfl := Option.some.inj hstep
    exact finish message now (sys.accept (.posted message now)) rfl hc ha

end Upheld

end SeamlessWorkflow
