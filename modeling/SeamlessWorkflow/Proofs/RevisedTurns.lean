import SeamlessWorkflow.Proofs.RevisedBuilders
import SeamlessWorkflow.Proofs.TurnMoves

/-!
# Turns and revisions

The assignments, the messages of runs, attachments and timers, and the turns made of them.
`Watch.Lawful.step` says what an event leaves of what is watched.
-/

namespace SeamlessWorkflow

open Program

/-- An assignment that leaves alone what is watched, or gives it a new revision. -/
def AssignValue.Respects (w : Watch) (ctx : Ctx) (path : NodePath) (value : AssignValue) : Prop :=
  match ctx.node? path with
  | some node =>
    if node.isCell then ∀ cell, value = .cell cell → cell.Respects w path
    else ∀ ep, value = .endpoint ep → ¬ w.fenced path
  | none => value.CreatesApart w path

/-- A turn that takes no watched node away and changes no fenced configuration without a new
revision. -/
def Turn.Respects (env : Substrate) (w : Watch) (ctx : Ctx) : Turn → Prop
  | .assign path value => value.Respects w ctx path
  | .delete path => (∀ p, below path p = true → ¬ w.stays p) ∧
      ∀ node pin, path = node ++ [.key pin] → ¬ w.fenced node
  | .setTransformerCode path code => ∀ ep, code = .endpoint ep → ¬ w.fenced path
  | .setTransformerPin path _ _ _ _ | .deleteTransformerPin path _ => ¬ w.fenced path
  | .setGraph doc _ => ∀ graph, prepareGraph env doc = .ok graph → ∀ p, w.stays p → p ∈ graph.nodes
  | .cellOperation _ _ _ _ _ | .updateBase _ _ _ | .commitUpdate _ _ _ _ _ _ | .cellDeletePath _ _
  | .recordPinReadError _ _ _ | .publishConfig _ _ _ | .mountAttach _ _ _ | .mountDetach _ _
  | .mountObserved _ _ _ | .clearException _ | .prune _ | .expireRun _ _ | .acceptFact _ _ => True
  | .close => False

/-- An event that leaves alone what is watched: the messages of runs do. -/
def Event.Respects (env : Substrate) (w : Watch) (ctx : Ctx) : Event → Prop
  | .turn t _ _ => t.Respects env w ctx
  | .started _ _ _ | .finished _ _ _ _ | .cancelled _ | .posted _ _ => True

theorem aside_clearReadErrors (path : NodePath) (ctx : Ctx) :
    Aside ctx (ctx.setDerived path
      (Node.mapTransformer fun fields => { fields with pinReadErrors := ∅ })) :=
  ⟨essence_clearReadErrors path ctx, by simp [Ctx.setDerived], rfl, rfl, rfl, fun _ => le_rfl, id⟩

theorem aside_unsettle (ctx : Ctx) : Aside ctx ctx.unsettle :=
  ⟨fun _ => rfl, rfl, rfl, rfl, rfl, fun _ => le_rfl, fun h => absurd h (by simp [Ctx.unsettle])⟩

theorem aside_dropCurrentRun (path : NodePath) (ctx : Ctx) : Aside ctx (ctx.dropCurrentRun path) := by
  unfold Ctx.dropCurrentRun
  dsimp only
  refine Aside.trans ?_ (aside_unsettle _)
  refine Aside.trans (b := { ctx with runtime := { ctx.runtime with
    currentRuns := ctx.runtime.currentRuns.erase path } }) ?_ (aside_cancelRuns _ _)
  exact .of_eq rfl rfl rfl rfl (fun _ => le_rfl) rfl

theorem aside_cancelAllRuns (ctx : Ctx) : Aside ctx ctx.cancelAllRuns := aside_cancelRuns _ ctx

theorem aside_releaseRefholds (env : Substrate) (ctx : Ctx) : Aside ctx (ctx.releaseRefholds env) :=
  (aside_decrefAll _ ctx).trans (.of_eq rfl rfl rfl rfl (fun _ => le_rfl) rfl)

theorem aside_updateSession (path : NodePath) (driver : String) (f : MountSession → MountSession)
    (ctx : Ctx) : Aside ctx (ctx.updateSession path driver f) := by
  unfold Ctx.updateSession
  split
  · exact .refl ctx
  · exact ⟨fun _ => rfl, rfl, rfl, rfl, rfl, fun _ => le_rfl, fun h => absurd h (by simp)⟩

namespace Kept

variable {env : Substrate} {w : Watch} {start ctx : Ctx}

/-- A change of a record of the ledger. -/
theorem updateRun (h : Kept w start ctx) (path : NodePath) (generation : Nat)
    (f : RunRecord → RunRecord) : Kept w start (ctx.updateRun path generation f) := by
  unfold Ctx.updateRun
  split
  · exact h.edit (.of_config rfl (fun _ _ => rfl) fun _ _ => rfl)
  · split
    · exact h
    · exact h.edit (.of_config rfl (fun _ _ => rfl) fun _ _ => rfl)

theorem lookup_foldl_insert (f : NodePath → Nat) (p : NodePath) (paths : List NodePath)
    (table : AList fun _ : NodePath => Nat) (h : p ∈ paths ∨ table.lookup p = some (f p)) :
    (paths.foldl (fun table path => table.insert path (f path)) table).lookup p = some (f p) := by
  induction paths generalizing table with
  | nil => exact h.resolve_left List.not_mem_nil
  | cons path paths ih =>
    refine ih _ ?_
    by_cases he : p = path
    · subst he
      exact Or.inr (AList.lookup_insert _)
    · refine h.imp (fun hm => (List.mem_cons.mp hm).resolve_left he) fun hl => ?_
      rwa [AList.lookup_insert_ne he]

/-- A graph that is installed gives its nodes new revisions. -/
theorem install (h : Kept w start ctx) {graph : ContextGraph}
    (hnodes : ∀ p, w.stays p → p ∈ graph.nodes) : Kept w start (ctx.install graph) := by
  have hrevision : ∀ p, w.stays p → (ctx.install graph).revision p = ctx.revision p + 1 := by
    intro p hp
    refine congrArg (fun found : Option Nat => found.getD 0) (lookup_foldl_insert
      (fun q => ctx.revision q + 1) p graph.nodes.keys ∅ (Or.inl ?_))
    exact AList.mem_keys.mp (hnodes p hp)
  refine ⟨fun hs => absurd hs Bool.false_ne_true, fun p hp _ => ?_, fun p hp hs => ?_, fun p hp hs he => ?_⟩
  · show ((graph.nodes.lookup p).map Node.config).isSome = true
    rw [Option.isSome_map]
    exact AList.lookup_isSome.mpr (hnodes p hp)
  · have := h.revision p hp hs
    rw [hrevision p hp]
    omega
  · have := h.revision p (w.fencedStays p hp) hs
    rw [hrevision p (w.fencedStays p hp)] at he
    omega

theorem detachSessions (hw : w.Lawful env) (h : Kept w start ctx) :
    Kept w start ctx.detachSessions := by
  unfold Ctx.detachSessions
  generalize ctx.mountSessions.keys = keys
  induction keys generalizing ctx with
  | nil => exact h
  | cons key keys ih => exact ih (h.detach hw key.1 key.2)

theorem replaceGraph (hw : w.Lawful env) (h : Kept w start ctx) {graph : ContextGraph}
    (hnodes : ∀ p, w.stays p → p ∈ graph.nodes) : Kept w start (ctx.replaceGraph env graph) := by
  have hclaimed := h.aside hw (aside_increfAll (graph.renumber ctx.nextIdent).preparedClaims ctx)
  have hcancelled := (hclaimed.aside hw (aside_cancelAllRuns _)).detachSessions hw
  refine (hcancelled.aside hw (aside_releaseRefholds env _)).install fun p hp => ?_
  have hkind := congrArg Option.isSome
    (renumber_map (f := Node.body) (fun _ _ => rfl) graph ctx.nextIdent p)
  rw [Option.isSome_map, Option.isSome_map] at hkind
  exact AList.lookup_isSome.mp (hkind.trans (AList.lookup_isSome.mpr (hnodes p hp)))

end Kept

namespace Watch.Lawful

variable {env : Substrate} {w : Watch} (h : w.Lawful env) (start : Ctx)

include h

theorem assign (path : NodePath) (value : AssignValue) {ctx : Ctx} (hc : Kept w start ctx)
    (hvalue : value.Respects w ctx path) :
    Triple (· = ctx) (assign env path value) (fun _ => Kept w start) (Kept w start) := by
  have hkept : ∀ ctx', ctx' = ctx → Kept w start ctx' := fun _ he => he ▸ hc
  refine Triple.inspect (inspects_refuseIf _ _ _) hkept fun _ => ?_
  refine Triple.inspect (inspects_refuseIf _ _ _) (fun _ hc => hkept _ hc.1) fun _ => ?_
  refine Triple.bind (R := fun _ => Kept w start) ?_ fun _ => h.deriveAll start
  refine Triple.get_bind fun ctx' => ?_
  refine Triple.assume (fun _ hc => hc.1.symm.trans hc.2.1.1) fun he => ?_
  subst he
  unfold AssignValue.Respects at hvalue
  cases hnode : ctx'.node? path with
  | some node =>
    rw [hnode] at hvalue
    dsimp only at hvalue
    refine Triple.conseq (P := Kept w start) (Q := fun _ => Kept w start) (E := Kept w start) ?_
      (fun ctx'' hc' => hc'.1 ▸ hc) (fun _ _ hc => hc) fun _ hc => hc
    refine Triple.ite (fun hcell => ?_) fun hcell => ?_
    · rw [if_pos hcell] at hvalue
      exact h.assignCell start path value hvalue
    · rw [if_neg hcell] at hvalue
      exact h.assignTransformer start path value hvalue
  | none =>
    rw [hnode] at hvalue
    refine (h.assignNew start path value hvalue).conseq (fun ctx'' hc' => ?_) (fun _ _ hc => hc)
      fun _ hc => hc
    obtain ⟨rfl, -⟩ := hc'
    refine ⟨hc, ?_⟩
    rw [mem_nodes_iff_outline]
    simp [Ctx.outline, hnode]

/-! ## Messages -/

theorem transformationStarted (path : NodePath) (generation : Nat) (identity : Checksum) :
    Keeps (Kept w start) (transformationStarted env path generation identity) := by
  refine Keeps.bind Keeps.get fun ctx => keeps_onlyIf ?_
  exact Keeps.bind (Keeps.modify fun _ hc => hc.updateRun _ _ _) fun _ => h.deriveAll start

theorem transformationFinished (path : NodePath) (generation : Nat) (identity result : Option Checksum)
    (error : Option Error) :
    Keeps (Kept w start) (transformationFinished env path generation identity result error) := by
  refine Keeps.bind Keeps.get fun ctx => keeps_onlyIf ?_
  refine Keeps.bind (Keeps.modify fun _ hc => hc.updateRun _ _ _) fun _ => ?_
  exact Keeps.bind (h.modifiesAside start aside_syncSupersededRefholds) fun _ => h.deriveAll start

theorem expireRun (path : NodePath) (generation : Nat) :
    Keeps (Kept w start) (expireRun path generation) :=
  h.modifiesAside start fun ctx =>
    (aside_dropQueued path _ ctx).trans (aside_syncSupersededRefholds _)

theorem prune (path : Option NodePath) : Keeps (Kept w start) (prune path) :=
  h.modifiesAside start fun ctx => (aside_pruneRuns _ ctx).trans (aside_syncSupersededRefholds _)

theorem clearException (path : NodePath) : Keeps (Kept w start) (clearException env path) := by
  refine Keeps.bind Keeps.get fun ctx => keeps_onlyIf ?_
  refine Keeps.bind (keeps_nodeAt path) fun node => ?_
  refine Keeps.bind (h.modifiesAside start (aside_clearReadErrors path)) fun _ => ?_
  refine keeps_onlyIf (Keeps.bind (modifiesEdit start fun ctx => ?_) fun _ => ?_)
  · exact .of_config rfl (fun _ _ => rfl) fun _ _ => rfl
  · refine Keeps.bind (h.modifiesAside start (aside_dropCurrentRun path)) fun _ => ?_
    exact Keeps.bind (modifyNode start path fun _ _ => rfl) fun _ => h.deriveAll start

theorem acceptFact (key : FactKey) (value : FactValue) :
    Keeps (Kept w start) (acceptFact env key value) := by
  refine Keeps.bind Keeps.get fun ctx => keeps_onlyIf (Keeps.bind ?_ fun _ => h.deriveAll start)
  exact modifiesEdit start fun _ => .of_config rfl (fun _ _ => rfl) fun _ _ => rfl

/-! ## Attachments -/

theorem updateSession (path : NodePath) (driver : String) (f : Ctx → MountSession → MountSession) :
    Keeps (Kept w start) (modify fun ctx => ctx.updateSession path driver (f ctx) : M Unit) :=
  h.modifiesAside start fun ctx => aside_updateSession path driver (f ctx) ctx

theorem mountSense (path : NodePath) (checksum : Checksum) :
    Keeps (Kept w start) (mountSense env path checksum) := by
  refine Keeps.bind (keeps_validateWrite _ _ _) fun _ => ?_
  exact Keeps.bind (keeps_cellAt path) fun _ => h.setCellRoot start _ _ _ _

theorem applyObservation (path : NodePath) (driver : String) (seen : Observation) :
    Keeps (Kept w start) (applyObservation env path driver seen) := by
  cases seen with
  | sense c => exact h.mountSense start path c
  | senseNull => exact h.mountSense start path _
  | senseNullError =>
    exact Keeps.bind (h.mountSense start path _) fun _ => h.updateSession start path driver _
  | senseError reason => exact h.updateSession start path driver _
  | clearError => exact h.updateSession start path driver _
  | nothing => exact Keeps.pure

theorem mountAttach (path : NodePath) (attachment : Attachment) (seen : Observation) :
    Keeps (Kept w start) (mountAttach env path attachment seen) := by
  refine Keeps.bind (keeps_mountNode path) fun node => Keeps.bind Keeps.get fun ctx => ?_
  refine Keeps.bind (keeps_refuseIf _ _ _) fun _ => Keeps.bind (keeps_refuseIf _ _ _) fun _ => ?_
  refine Keeps.bind (keeps_refuseWith _) fun _ => ?_
  refine Keeps.bind (modifyNode start path fun _ node => ?_) fun _ => ?_
  · cases attachment <;> rfl
  · refine Keeps.bind (h.modifiesAside start fun _ => .of_eq rfl rfl rfl rfl (fun _ => le_rfl) rfl)
      fun _ => ?_
    exact Keeps.bind (h.applyObservation start path _ seen) fun _ => h.deriveAll start

theorem mountDetach (path : NodePath) (driver : String) :
    Keeps (Kept w start) (mountDetach env path driver) := by
  refine Keeps.bind Keeps.get fun ctx => keeps_onlyIf ?_
  exact Keeps.bind (Keeps.modify fun _ hc => hc.detach h path driver) fun _ => h.deriveAll start

theorem mountObserved (path : NodePath) (driver : String) (seen : Observation) :
    Keeps (Kept w start) (mountObserved env path driver seen) := by
  refine Keeps.bind Keeps.get fun ctx => keeps_onlyIf (Keeps.tryCatch ?_ fun _ => Keeps.pure)
  exact Keeps.bind (h.applyObservation start path driver seen) fun _ => h.deriveAll start

theorem afterTurn : Keeps (Kept w start) (afterTurn env) := by
  refine Keeps.bind Keeps.get fun ctx => keeps_onlyIf ?_
  refine Keeps.bind Keeps.get fun ctx => Keeps.forM fun key _ => ?_
  split
  · exact Keeps.pure
  · exact h.mountDetach start _ _

theorem setGraph {graph : ContextGraph} (hnodes : ∀ p, w.stays p → p ∈ graph.nodes)
    (attachments : List (NodePath × Attachment × Observation)) :
    Keeps (Kept w start) (setGraph env graph attachments) := by
  refine Keeps.bind (Keeps.modify fun _ hc => hc.replaceGraph h hnodes) fun _ => ?_
  exact Keeps.bind (h.deriveAll start) fun _ => Keeps.forM fun entry _ => h.mountAttach start _ _ _

/-! ## Turns -/

theorem operation (turn : Turn) {ctx : Ctx} (hc : Kept w start ctx) (ht : turn.Respects env w ctx) :
    Triple (· = ctx) (operation env turn) (fun _ => Kept w start) (Kept w start) := by
  have keeps : ∀ {program : M Unit}, Keeps (Kept w start) program →
      Triple (· = ctx) program (fun _ => Kept w start) (Kept w start) := fun hk =>
    hk.conseq (fun _ he => he ▸ hc) (fun _ _ h => h) fun _ h => h
  cases turn with
  | assign path value => exact h.assign start path value hc ht
  | delete path =>
    exact keeps (h.delete start path (fun p hp hs => absurd hs (ht.1 p hp)) ht.2)
  | cellOperation path localPath value detach inputCelltype =>
    exact keeps (h.cellOperation start path localPath value detach inputCelltype)
  | updateBase path localPath detach =>
    exact keeps (Keeps.bind (keeps_updateBase path localPath detach) fun _ => Keeps.pure)
  | commitUpdate path localPath checksum base revision detach =>
    exact keeps (Keeps.bind (h.commitUpdate start path localPath checksum base revision detach)
      fun _ => Keeps.pure)
  | cellDeletePath path localPath => exact keeps (h.cellDeletePath start path localPath)
  | setTransformerCode path code => exact keeps (h.setTransformerCode start path code ht)
  | setTransformerPin path pin value inputCelltype detach =>
    exact keeps (h.setTransformerPin start path ht pin value inputCelltype detach)
  | deleteTransformerPin path pin => exact keeps (h.deleteTransformerPin start path ht pin)
  | recordPinReadError path pin readError => exact keeps (h.recordPinReadError start path pin readError)
  | publishConfig path revision config =>
    exact keeps (Keeps.bind (h.publishConfig start path revision config) fun _ => Keeps.pure)
  | setGraph doc attachments =>
    delta SeamlessWorkflow.operation
    dsimp only
    cases hg : prepareGraph env doc with
    | ok graph => exact keeps (h.setGraph start (ht graph hg) attachments)
    | error e => exact keeps Keeps.throw
  | mountAttach path attachment seen => exact keeps (h.mountAttach start path attachment seen)
  | mountDetach path driver => exact keeps (h.mountDetach start path driver)
  | mountObserved path driver seen => exact keeps (h.mountObserved start path driver seen)
  | clearException path => exact keeps (h.clearException start path)
  | prune path => exact keeps (h.prune start path)
  | expireRun path generation => exact keeps (h.expireRun start path generation)
  | acceptFact key value => exact keeps (h.acceptFact start key value)
  | close => exact ht.elim

omit h in
theorem arrive (h : w.Lawful env) {start ctx : Ctx} (hc : Kept w start ctx) (now : Nat)
    (missing : List Checksum) : Kept w start (ctx.arrive now missing) :=
  hc.aside h (.of_eq rfl rfl rfl rfl (fun _ => le_rfl) rfl)

theorem runTurn {α : Type} {program : M α} {now : Nat} {missing : List Checksum} {ctx : Ctx}
    (hc : Kept w start ctx) (hprogram : Triple (· = ctx.arrive now missing) program
      (fun _ => Kept w start) (Kept w start)) :
    Kept w start (ctx.runTurn env program now missing).2 := by
  have hrun := hprogram _ rfl
  have hafter : ∀ {ctx'}, Kept w start ctx' →
      Kept w start (finalState (SeamlessWorkflow.afterTurn env ctx')) :=
    fun hc => (h.afterTurn start).final hc
  unfold Ctx.runTurn
  split
  · exact hc
  · cases hr : program (ctx.arrive now missing) with
    | ok a ctx' =>
      rw [hr] at hrun
      have hfinal := hafter hrun
      dsimp only
      cases ha : SeamlessWorkflow.afterTurn env ctx' with
      | ok u ctx'' => rw [ha] at hfinal; exact hfinal
      | error e ctx'' => rw [ha] at hfinal; exact hfinal
    | error e ctx' =>
      rw [hr] at hrun
      exact hafter hrun

/-- What is watched has been kept by an event that respects it. -/
theorem step {sys next : System} {event : Event} (hc : Kept w start sys.ctx)
    (hevent : event.Respects env w sys.ctx) (hs : sys.step env event = some next) :
    Kept w start next.ctx := by
  have keeps : ∀ {program : M Unit} (now : Nat) (missing : List Checksum),
      Keeps (Kept w start) program →
      Kept w start (sys.ctx.runTurn env program now missing).2 := fun now missing hk =>
    h.runTurn start hc (hk.conseq (fun _ he => he ▸ h.arrive hc now missing) (fun _ _ h => h)
      fun _ h => h)
  cases event with
  | turn t now missing =>
    obtain rfl := Option.some.inj hs
    exact h.runTurn start hc (h.operation start t (h.arrive hc now missing) hevent)
  | started run identity now =>
    obtain ⟨-, hs⟩ := Option.ite_none_right_eq_some.mp hs
    obtain rfl := Option.some.inj hs
    exact keeps now [] (h.transformationStarted start _ _ _)
  | finished run identity outcome now =>
    obtain ⟨-, hs⟩ := Option.ite_none_right_eq_some.mp hs
    obtain rfl := Option.some.inj hs
    exact keeps now [] (h.transformationFinished start _ _ _ _ _)
  | cancelled run =>
    obtain ⟨-, hs⟩ := Option.ite_none_right_eq_some.mp hs
    obtain rfl := Option.some.inj hs
    exact hc
  | posted message now =>
    obtain ⟨-, hs⟩ := Option.ite_none_right_eq_some.mp hs
    obtain rfl := Option.some.inj hs
    exact keeps now [] (h.transformationFinished start _ _ _ _ _)

end Watch.Lawful

end SeamlessWorkflow
