import SeamlessWorkflow.Proofs.Holders
import SeamlessWorkflow.Proofs.LedgerMoves
import SeamlessWorkflow.Proofs.NodeRecords
import SeamlessWorkflow.Proofs.ReadErrors
import SeamlessWorkflow.Proofs.WiringResults

/-!
# Derivation reaches a fixpoint

Every node is derived once, after the nodes upstream of it. So once the derivation is over, every node
is what derivation makes of the Context as it then stands. Whatever changes an input of a derivation
leaves the graph to be derived again, so this holds in every reachable state that is settled.
-/

namespace SeamlessWorkflow

open Program Relation

/-! ## Nodes that are what derivation makes of them -/

/-- The outcome of a transformer: that of its inputs, or what the current run for their demand has
delivered. -/
def Ctx.Answers (ctx : Ctx) (path : NodePath) (config : TransformerConfig) (verdict : InputVerdict)
    (outcome : Outcome) : Prop :=
  match verdict with
  | .ready code pins => ∃ record, ctx.runtime.currentRuns.lookup path = some record ∧
      record.demandKey = some (Ctx.demandKey config code pins) ∧ outcome = record.outcome
  | verdict => outcome = verdict.outcome

/-- The node at a path is what derivation makes of the Context as it stands: a cell with the errors of
its attachments, a transformer with the read errors that are recorded for its pins. -/
inductive Ctx.Derived (env : Substrate) (ctx : Ctx) (path : NodePath) (node : Node) : Prop
  | cell {fields : CellFields} (body : node.body = .cell fields)
      (written : (node.settle env (cellOutcome env ctx.view (ctx.outsideErrors path).sense path
        fields).value).essence = node.essence) : Derived env ctx path node
  | transformer {fields : TransformerFields} (outcome : Outcome) (body : node.body = .transformer fields)
      (answers : ctx.Answers path fields.config
        (transformerReading env ctx.view path fields).value.verdict outcome)
      (written : ((node.withPins (transformerReading env ctx.view path fields).value).settle env
        outcome).essence = node.essence) : Derived env ctx path node

/-- Every node is what derivation makes of the Context as it stands. -/
def Ctx.AllDerived (env : Substrate) (ctx : Ctx) : Prop :=
  ∀ path node, ctx.node? path = some node → ctx.Derived env path node

theorem Ctx.outsideErrors_pins {ctx : Ctx} {path : NodePath} {node : Node} {fields : TransformerFields}
    (hnode : ctx.node? path = some node) (hbody : node.body = .transformer fields) :
    (ctx.outsideErrors path).pins = fields.pinReadErrors := by
  unfold Ctx.outsideErrors
  rw [hnode, Option.map_some, hbody]

theorem KeepsErrors.sense {ctx ctx' : Ctx} {path : NodePath} (h : KeepsErrors ctx ctx' path) :
    (ctx'.outsideErrors path).sense = (ctx.outsideErrors path).sense := by
  rcases h with h | ⟨h, -⟩ <;> rw [h]

/-! ### What is written into a node -/

theorem Node.settle_settle (env : Substrate) (outcome : Outcome) (node : Node) :
    (node.settle env outcome).settle env outcome = node.settle env outcome := by
  unfold Node.settle Node.celltype
  cases outcome.exception <;> rfl

theorem Node.celltype_essence (node : Node) : node.essence.celltype = node.celltype := by
  unfold Node.essence Node.celltype
  cases node.body <;> rfl

theorem Node.design_essence (node : Node) : node.essence.design = node.design := by
  unfold Node.essence Node.design
  cases node.body <;> rfl

theorem Node.essence_settle (env : Substrate) (outcome : Outcome) (node : Node) :
    (node.settle env outcome).essence = node.essence.settle env outcome := by
  unfold Node.settle
  rw [Node.celltype_essence]
  rfl

/-- What is written depends on the essence of the node. -/
theorem Node.essence_withPins (reading : TransformerReading) (node : Node) :
    (node.withPins reading).essence = (node.essence.withPins reading).essence := by
  obtain ⟨ident, body⟩ := node
  cases body <;> rfl

theorem Node.withPins_withPins (reading : TransformerReading) (node : Node) :
    ((node.withPins reading).withPins reading).essence = (node.withPins reading).essence := by
  obtain ⟨ident, body⟩ := node
  cases body <;> rfl

theorem Node.settle_withPins (env : Substrate) (outcome : Outcome) (reading : TransformerReading)
    (node : Node) : (node.settle env outcome).withPins reading =
      (node.withPins reading).settle env outcome := by
  obtain ⟨ident, body⟩ := node
  cases body <;> rfl

/-- Writing the same once more changes nothing. -/
theorem Node.written_again (env : Substrate) (outcome : Outcome) (reading : TransformerReading)
    (node : Node) : ((((node.withPins reading).settle env outcome).withPins reading).settle env
      outcome).essence = ((node.withPins reading).settle env outcome).essence := by
  rw [Node.settle_withPins, Node.settle_settle, Node.essence_settle, Node.withPins_withPins,
    ← Node.essence_settle]

/-! ### Changes of bookkeeping -/

theorem Quiet.agrees {ctx ctx' : Ctx} (h : Quiet ctx ctx') :
    ctx.graph.Agrees (fun _ => True) ctx'.graph := by
  have read : ∀ {β : Type} {f : Node → β}, (∀ node, f node.essence = f node) → ∀ q,
      (ctx'.node? q).map f = (ctx.node? q).map f := by
    intro β f hf q
    have hq := congrArg (Option.map f) (h.node q)
    rw [Option.map_map, Option.map_map] at hq
    rwa [show f ∘ Node.essence = f from funext hf] at hq
  exact ⟨read Node.design_essence, h.edges, fun q _ => read (f := Node.shown) (fun _ => rfl) q⟩

theorem ContextGraph.sees_all (g : ContextGraph) (path : NodePath) : g.Sees (fun _ => True) path :=
  ⟨fun _ _ => trivial, fun _ _ _ _ => trivial⟩

/-- A node whose essence stays is written as before. -/
theorem Node.written_of_essence {env : Substrate} {outcome : Outcome} {node node' : Node}
    (he : node'.essence = node.essence) (h : (node.settle env outcome).essence = node.essence) :
    (node'.settle env outcome).essence = node'.essence := by
  rw [Node.essence_settle, he, ← Node.essence_settle, h]

theorem Node.writtenPins_of_essence {env : Substrate} {outcome : Outcome}
    {reading : TransformerReading} {node node' : Node} (he : node'.essence = node.essence)
    (h : ((node.withPins reading).settle env outcome).essence = node.essence) :
    ((node'.withPins reading).settle env outcome).essence = node'.essence := by
  rw [Node.essence_settle, Node.essence_withPins, he, ← Node.essence_withPins,
    ← Node.essence_settle, h]

/-- A transformer that derivation has made shows the pins as they are read. -/
theorem Node.errors_of_written {env : Substrate} {outcome : Outcome} {reading : TransformerReading}
    {node : Node} {fields : TransformerFields} (hbody : node.body = .transformer fields)
    (h : ((node.withPins reading).settle env outcome).essence = node.essence) (he : node.errors = []) :
    (shownPins reading.pins).entries.filterMap (fun entry => entry.2.error) = [] := by
  have hpins := congrArg Node.body h
  unfold Node.essence Node.settle Node.withPins Node.mapTransformer at hpins
  simp only [hbody, NodeBody.transformer.injEq] at hpins
  have hstates : shownPins reading.pins = fields.pinStates :=
    congrArg TransformerFields.pinStates hpins
  unfold Node.errors at he
  rw [hbody] at he
  rw [hstates]
  exact (List.append_eq_nil_iff.mp he).2

/-- A node that is what derivation makes of it stays so in a Context that looks the same, as long as no
error is lost that it shows. -/
theorem Ctx.Derived.of_agrees {env : Substrate} {ctx ctx' : Ctx} {path : NodePath} {node node' : Node}
    (h : ctx.Derived env path node) (hnode : ctx.node? path = some node)
    (hnode' : ctx'.node? path = some node') (he : node'.essence = node.essence)
    (hagrees : ctx.graph.Agrees (fun _ => True) ctx'.graph) (hfacts : ctx'.facts = ctx.facts)
    (hcurrent : ctx'.runtime.currentRuns.lookup path = ctx.runtime.currentRuns.lookup path)
    (herrors : KeepsErrors ctx ctx' path) : ctx'.Derived env path node' := by
  have hview : ∀ key, ctx'.view.facts.lookup key = ctx.view.facts.lookup key := fun key =>
    congrArg (fun facts => AList.lookup key facts) hfacts
  have hsees := ctx.graph.sees_all path
  have hdesign : node'.design = node.design := by
    rw [← Node.design_essence, he, Node.design_essence]
  have halike := Node.alike_of_design hdesign
  cases h with
  | cell body written =>
    rw [body] at halike
    generalize hb : node'.body = body' at halike
    cases halike with
    | cell fields =>
      refine .cell hb ?_
      rw [herrors.sense, (stays_cellOutcome env hagrees hsees _ _).eq fun key _ => hview key]
      exact Node.written_of_essence he written
  | @transformer fields outcome body answers written =>
    rw [body] at halike
    generalize hb : node'.body = body' at halike
    cases halike with
    | @transformer _ fields' hconfig hpins =>
      have hinputs : ∀ errors, fields'.inputs errors = fields.inputs errors := by
        intro errors
        unfold TransformerFields.inputs
        rw [hconfig, hpins]
      have hreading : transformerReading env ctx'.view path fields' =
          transformerReading env ctx.view path fields := by
        have hstays := (stays_transformerReading env hagrees hsees
          (fields.inputs fields'.pinReadErrors)).eq fun key _ => hview key
        rw [← transformerReading_inputs, hinputs, hstays]
        have hkept := Ctx.outsideErrors_pins hnode' hb
        rcases herrors with h | ⟨h, hshown⟩
        · rw [← hkept, h, Ctx.outsideErrors_pins hnode body, transformerReading_inputs]
        · rw [← hkept, h]
          rw [hnode] at hshown
          exact transformerReading_forgotten
            (Node.errors_of_written body written (Option.some.inj hshown))
      refine .transformer outcome hb ?_ ?_
      · rw [hreading, hconfig]
        unfold Ctx.Answers at answers ⊢
        rwa [hcurrent]
      · rw [hreading]
        exact Node.writtenPins_of_essence he written

theorem Ctx.AllDerived.quiet {env : Substrate} {ctx ctx' : Ctx} (h : ctx.AllDerived env)
    (hq : Quiet ctx ctx') (hsettled : ctx'.settled = true) : ctx'.AllDerived env := by
  intro path node' hnode'
  have hessence := hq.node path
  rw [hnode'] at hessence
  obtain ⟨node, hnode, he⟩ := Option.map_eq_some_iff.mp hessence.symm
  exact (h path node hnode).of_agrees hnode hnode' he.symm hq.agrees hq.facts (by rw [hq.current])
    (hq.errors hsettled path)

/-! ## One round of the derivation -/

/-- The facts and the missing buffers stay, and what has been demanded stays demanded. -/
structure KeepsFacts (ctx ctx' : Ctx) : Prop where
  facts : ctx'.facts = ctx.facts
  missing : ctx'.missing = ctx.missing
  used : ctx.usedFacts ⊆ ctx'.usedFacts

namespace KeepsFacts

theorem refl (ctx : Ctx) : KeepsFacts ctx ctx := ⟨rfl, rfl, List.Subset.refl _⟩

theorem of_eq {ctx ctx' : Ctx} (hfacts : ctx'.facts = ctx.facts) (hmissing : ctx'.missing = ctx.missing)
    (hused : ctx'.usedFacts = ctx.usedFacts) : KeepsFacts ctx ctx' :=
  ⟨hfacts, hmissing, by rw [hused]; exact List.Subset.refl _⟩

theorem trans {a b c : Ctx} (h : KeepsFacts a b) (h' : KeepsFacts b c) : KeepsFacts a c :=
  ⟨h'.facts.trans h.facts, h'.missing.trans h.missing, List.Subset.trans h.used h'.used⟩

theorem foldl {α : Type} {f : Ctx → α → Ctx} (h : ∀ ctx a, KeepsFacts ctx (f ctx a)) (as : List α)
    (ctx : Ctx) : KeepsFacts ctx (as.foldl f ctx) := by
  induction as generalizing ctx with
  | nil => exact .refl ctx
  | cons a as ih => exact (h ctx a).trans (ih (f ctx a))

end KeepsFacts

theorem keepsFacts_noteFact (key : FactKey) (ctx : Ctx) : KeepsFacts ctx (ctx.noteFact key) := by
  unfold Ctx.noteFact
  dsimp only
  split
  · exact ⟨rfl, rfl, List.subset_append_left _ _⟩
  · exact ⟨rfl, rfl, List.subset_append_left _ _⟩

theorem mem_usedFacts_noteFact (key : FactKey) (ctx : Ctx) : key ∈ (ctx.noteFact key).usedFacts := by
  unfold Ctx.noteFact
  dsimp only
  split
  · exact List.mem_append_right _ (List.mem_singleton_self _)
  · exact List.mem_append_right _ (List.mem_singleton_self _)

theorem keepsFacts_report {α : Type} (env : Substrate) (x : Evaluated α) (ctx : Ctx) :
    KeepsFacts ctx (ctx.report env x) := by
  refine (KeepsFacts.foldl (fun ctx key => keepsFacts_noteFact key ctx) x.used ctx).trans
    (KeepsFacts.foldl (fun ctx entry => ?_) x.anonymous _)
  exact .of_eq rfl rfl rfl

/-- What an evaluation has demanded is noted. -/
theorem used_report {α : Type} (env : Substrate) (x : Evaluated α) (ctx : Ctx) :
    x.used ⊆ (ctx.report env x).usedFacts := by
  have loop : ∀ (keys : List FactKey) (ctx : Ctx),
      keys ⊆ (keys.foldl (fun ctx key => ctx.noteFact key) ctx).usedFacts := by
    intro keys
    induction keys with
    | nil => exact fun _ => List.nil_subset _
    | cons key keys ih =>
      intro ctx
      refine List.cons_subset.mpr ⟨?_, ih _⟩
      refine (KeepsFacts.foldl (fun ctx key => keepsFacts_noteFact key ctx) keys _).used ?_
      exact mem_usedFacts_noteFact key ctx
  refine List.Subset.trans (loop x.used ctx)
    (KeepsFacts.foldl (fun ctx entry => ?_) x.anonymous _).used
  exact .of_eq rfl rfl rfl

theorem keepsFacts_increfAll (cs : List Checksum) (ctx : Ctx) : KeepsFacts ctx (ctx.increfAll cs) := by
  rw [increfAll_eq]
  exact .of_eq rfl rfl rfl

theorem keepsFacts_decrefAll (cs : List Checksum) (ctx : Ctx) : KeepsFacts ctx (ctx.decrefAll cs) := by
  rw [decrefAll_eq]
  exact .of_eq rfl rfl rfl

theorem keepsFacts_replaceCurrentChecksum (env : Substrate) (path : NodePath)
    (checksum : Option Checksum) (ctx : Ctx) :
    KeepsFacts ctx (ctx.replaceCurrentChecksum env path checksum) := by
  unfold Ctx.replaceCurrentChecksum
  split
  · exact .refl ctx
  · dsimp only
    rw [decrefAll_eq, increfAll_eq]
    exact .of_eq rfl rfl rfl

theorem keepsFacts_applyOutcome (env : Substrate) (path : NodePath) (outcome : Outcome) (ctx : Ctx) :
    KeepsFacts ctx (ctx.applyOutcome env path outcome) := by
  have hreplaced := keepsFacts_replaceCurrentChecksum env path outcome.checksum ctx
  exact ⟨hreplaced.facts, hreplaced.missing, hreplaced.used⟩

theorem cancelRuns_eq (records : List RunRecord) (ctx : Ctx) :
    ctx.cancelRuns records = { ctx with effects := (ctx.cancelRuns records).effects } := by
  unfold Ctx.cancelRuns
  induction records generalizing ctx with
  | nil => rfl
  | cons record records ih =>
    rw [List.foldl_cons, ih]
    split <;> rfl

theorem keepsFacts_suspend (path : NodePath) (ctx : Ctx) : KeepsFacts ctx (ctx.suspend path) := by
  unfold Ctx.suspend
  split
  · exact .refl ctx
  · dsimp only
    rw [cancelRuns_eq]
    exact .of_eq rfl rfl rfl

theorem keepsFacts_dropQueued (path : NodePath) (dropped : RunRecord → Bool) (ctx : Ctx) :
    KeepsFacts ctx (ctx.dropQueued path dropped) := by
  unfold Ctx.dropQueued
  split
  · exact .refl ctx
  · rw [cancelRuns_eq]
    exact .of_eq rfl rfl rfl

theorem keepsFacts_publishRun (env : Substrate) (path : NodePath) (record : RunRecord) (ctx : Ctx) :
    KeepsFacts ctx (ctx.publishRun env path record) := by
  rw [publishRun_eq]
  exact keepsFacts_applyOutcome env path _ ctx

theorem keepsFacts_reinstate (env : Substrate) (path : NodePath) (record : RunRecord) (ctx : Ctx) :
    KeepsFacts ctx (ctx.reinstate env path record) := by
  unfold Ctx.reinstate
  dsimp only
  refine KeepsFacts.trans ?_ (keepsFacts_publishRun env path _ _)
  split <;> exact .of_eq rfl rfl rfl

theorem keepsFacts_launch (env : Substrate) (path : NodePath) (node : Node) (key : DemandKey)
    (ctx : Ctx) : KeepsFacts ctx (ctx.launch env path node key) := by
  set counted : Ctx :=
    { ctx with runtime := { ctx.runtime with generation := ctx.runtime.generation + 1 } }
  have hshown := keepsFacts_publishRun env path (ctx.launchedRecord env path node key)
    (counted.setCurrentRun path (ctx.launchedRecord env path node key))
  exact ⟨hshown.facts, hshown.missing, hshown.used⟩

theorem keepsFacts_meetDemand (env : Substrate) (path : NodePath) (node : Node) (key : DemandKey)
    (ctx : Ctx) : KeepsFacts ctx (ctx.meetDemand env path node key) := by
  unfold Ctx.meetDemand
  dsimp only
  refine KeepsFacts.trans (b := ctx.releaseUpstreamHolds path fun record =>
    decide (record.demandKey = some key)) (keepsFacts_dropQueued path _ ctx) ?_
  split
  · exact keepsFacts_publishRun env path _ _
  · refine (keepsFacts_suspend path _).trans ?_
    split
    · exact keepsFacts_reinstate env path _ _
    · exact keepsFacts_launch env path node key _

theorem keepsFacts_deriveTransformer (env : Substrate) (path : NodePath) (node : Node)
    (fields : TransformerFields) (ctx : Ctx) :
    KeepsFacts (ctx.report env (transformerReading env ctx.view path fields))
      (ctx.deriveTransformer env path node fields) := by
  unfold Ctx.deriveTransformer
  dsimp only
  generalize transformerReading env ctx.view path fields = evaluated
  have hnoted : KeepsFacts (ctx.report env evaluated)
      ((ctx.report env evaluated).noteEdgeCode path evaluated.value.edgeCode) := by
    unfold Ctx.noteEdgeCode
    split <;> exact .of_eq rfl rfl rfl
  refine hnoted.trans ?_
  generalize (ctx.report env evaluated).noteEdgeCode path evaluated.value.edgeCode = noted
  have hsuspended : ∀ (blocked : List (Reason × String)) (outcome : Outcome), KeepsFacts noted
      (((noted.writePins path evaluated.value blocked).suspend path).applyOutcome env path outcome) := by
    intro blocked outcome
    refine KeepsFacts.trans (b := noted.writePins path evaluated.value blocked) (.of_eq rfl rfl rfl) ?_
    exact (keepsFacts_suspend path _).trans (keepsFacts_applyOutcome env path outcome _)
  split
  · exact hsuspended _ _
  · exact hsuspended _ _
  · exact KeepsFacts.trans (b := noted.writePins path evaluated.value []) (.of_eq rfl rfl rfl)
      (keepsFacts_meetDemand env path node _ _)

theorem keepsFacts_deriveNode (env : Substrate) (ctx : Ctx) (path : NodePath) :
    KeepsFacts ctx (ctx.deriveNode env path) := by
  have hnoted : KeepsFacts ctx (ctx.noteDerivation path) := .of_eq rfl rfl rfl
  unfold Ctx.deriveNode
  dsimp only
  generalize ctx.noteDerivation path = noted at hnoted
  refine hnoted.trans ?_
  split
  · exact .refl noted
  · split
    · exact (keepsFacts_report env _ noted).trans (keepsFacts_applyOutcome env path _ _)
    · exact (keepsFacts_report env _ noted).trans (keepsFacts_deriveTransformer env path _ _ noted)

/-! ### The current runs of the other nodes -/

/-- The current run of every other node stays. -/
def CurrentElsewhere (path : NodePath) (ctx ctx' : Ctx) : Prop :=
  ∀ q, q ≠ path → ctx'.runtime.currentRuns.lookup q = ctx.runtime.currentRuns.lookup q

namespace CurrentElsewhere

variable {path : NodePath}

theorem of_eq {ctx ctx' : Ctx} (h : ctx'.runtime.currentRuns = ctx.runtime.currentRuns) :
    CurrentElsewhere path ctx ctx' := fun q _ => by rw [h]

theorem trans {a b c : Ctx} (h : CurrentElsewhere path a b) (h' : CurrentElsewhere path b c) :
    CurrentElsewhere path a c := fun q hq => (h' q hq).trans (h q hq)

end CurrentElsewhere

theorem currentElsewhere_setCurrentRun (path : NodePath) (record : RunRecord) (ctx : Ctx) :
    CurrentElsewhere path ctx (ctx.setCurrentRun path record) := fun _ hq => AList.lookup_insert_ne hq

theorem currentElsewhere_suspend (path : NodePath) (ctx : Ctx) :
    CurrentElsewhere path ctx (ctx.suspend path) := by
  unfold Ctx.suspend
  cases hc : ctx.runtime.currentRuns.lookup path with
  | none => exact .of_eq rfl
  | some current =>
    intro q hq
    dsimp only
    rw [cancelRuns_eq]
    exact (replaces_supersede hc _ ctx.now).currentElse q hq

theorem currentElsewhere_dropQueued (path q : NodePath) (dropped : RunRecord → Bool) (ctx : Ctx) :
    CurrentElsewhere path ctx (ctx.dropQueued q dropped) :=
  .of_eq (quiet_dropQueued q dropped ctx).current

theorem currentElsewhere_publishRun (env : Substrate) (path : NodePath) (record : RunRecord)
    (ctx : Ctx) : CurrentElsewhere path ctx (ctx.publishRun env path record) :=
  .of_eq (congrArg ContextRuntime.currentRuns (frame_publishRun env path record ctx).runtime)

theorem currentElsewhere_reinstate (env : Substrate) (path : NodePath) (record : RunRecord)
    (ctx : Ctx) : CurrentElsewhere path ctx (ctx.reinstate env path record) := by
  unfold Ctx.reinstate
  dsimp only
  refine CurrentElsewhere.trans ?_ (currentElsewhere_publishRun env path _ _)
  refine CurrentElsewhere.trans ?_ (currentElsewhere_setCurrentRun path _ _)
  split <;> exact .of_eq rfl

theorem currentElsewhere_launch (env : Substrate) (path : NodePath) (node : Node) (key : DemandKey)
    (ctx : Ctx) : CurrentElsewhere path ctx (ctx.launch env path node key) := by
  set counted : Ctx :=
    { ctx with runtime := { ctx.runtime with generation := ctx.runtime.generation + 1 } }
  have hshown := currentElsewhere_publishRun env path (ctx.launchedRecord env path node key)
    (counted.setCurrentRun path (ctx.launchedRecord env path node key))
  have hset := currentElsewhere_setCurrentRun path (ctx.launchedRecord env path node key) counted
  exact fun q hq => (hshown q hq).trans (hset q hq)

theorem currentElsewhere_meetDemand (env : Substrate) (path : NodePath) (node : Node)
    (key : DemandKey) (ctx : Ctx) : CurrentElsewhere path ctx (ctx.meetDemand env path node key) := by
  unfold Ctx.meetDemand
  dsimp only
  refine CurrentElsewhere.trans (b := ctx.releaseUpstreamHolds path fun record =>
    decide (record.demandKey = some key)) (currentElsewhere_dropQueued path path _ ctx) ?_
  split
  · exact currentElsewhere_publishRun env path _ _
  · refine (currentElsewhere_suspend path _).trans ?_
    split
    · exact currentElsewhere_reinstate env path _ _
    · exact currentElsewhere_launch env path node key _

theorem currentElsewhere_deriveNode (env : Substrate) (ctx : Ctx) (path : NodePath) :
    CurrentElsewhere path ctx (ctx.deriveNode env path) := by
  have happlied : ∀ (outcome : Outcome) (ctx : Ctx),
      CurrentElsewhere path ctx (ctx.applyOutcome env path outcome) := fun outcome ctx =>
    .of_eq (congrArg ContextRuntime.currentRuns (frame_applyOutcome env path outcome ctx).runtime)
  have hnoted : CurrentElsewhere path ctx (ctx.noteDerivation path) := .of_eq rfl
  unfold Ctx.deriveNode
  dsimp only
  generalize ctx.noteDerivation path = ctx at hnoted
  refine hnoted.trans ?_
  cases ctx.node? path with
  | none => exact .of_eq rfl
  | some node =>
    dsimp only
    cases node.body with
    | cell fields =>
      refine CurrentElsewhere.trans ?_ (happlied _ _)
      exact .of_eq (congrArg ContextRuntime.currentRuns (beside_report env _ ctx).runtime)
    | transformer fields =>
      dsimp only
      unfold Ctx.deriveTransformer
      dsimp only
      generalize transformerReading env ctx.view path fields = evaluated
      have hnoted := ((beside_report env evaluated ctx).trans
        (beside_noteEdgeCode path evaluated.value.edgeCode _)).runtime
      refine CurrentElsewhere.trans (.of_eq (congrArg ContextRuntime.currentRuns hnoted)) ?_
      generalize (ctx.report env evaluated).noteEdgeCode path evaluated.value.edgeCode = noted
      have hpins : ∀ blocked, CurrentElsewhere path noted
          (noted.writePins path evaluated.value blocked) := fun _ => .of_eq rfl
      split
      · exact (hpins _).trans ((currentElsewhere_suspend path _).trans (happlied _ _))
      · exact (hpins _).trans ((currentElsewhere_suspend path _).trans (happlied _ _))
      · exact (hpins _).trans (currentElsewhere_meetDemand env path node _ _)

/-! ### The end of the derivation -/

theorem updateRuntime_of_transformer {ctx : Ctx} {path : NodePath} {node : Node}
    (hnode : ctx.node? path = some node) (hcell : node.isCell = false) :
    ctx.updateRuntime path = ctx := by
  unfold Ctx.updateRuntime
  rw [hnode]
  dsimp only
  rw [hcell]
  rfl

theorem currentElsewhere_startCellRun (path : NodePath) (node : Node) (checksum : Checksum) (ctx : Ctx) :
    CurrentElsewhere path ctx (ctx.startCellRun path node checksum) := by
  have hset : ∀ record, CurrentElsewhere path ctx ((({ ctx with runtime := { ctx.runtime with
      generation := ctx.runtime.generation + 1 } } : Ctx)).setCurrentRun path record) :=
    fun record _ hq => AList.lookup_insert_ne hq
  unfold Ctx.startCellRun
  split
  · exact hset _
  · exact hset _
  · exact hset _
  · exact .of_eq rfl

theorem keepsFacts_startCellRun (path : NodePath) (node : Node) (checksum : Checksum) (ctx : Ctx) :
    KeepsFacts ctx (ctx.startCellRun path node checksum) := by
  unfold Ctx.startCellRun
  split <;> exact .of_eq rfl rfl rfl

theorem currentElsewhere_updateRuntime (ctx : Ctx) (path : NodePath) :
    CurrentElsewhere path ctx (ctx.updateRuntime path) := by
  unfold Ctx.updateRuntime
  split
  · exact .of_eq rfl
  · split
    · exact .of_eq rfl
    · split
      · exact currentElsewhere_suspend path ctx
      · dsimp only
        have hreleased : CurrentElsewhere path ctx (ctx.releaseUpstreamHolds path fun _ => false) :=
          currentElsewhere_dropQueued path path _ ctx
        refine hreleased.trans ?_
        split
        · split
          · exact currentElsewhere_setCurrentRun path _ _
          · exact (currentElsewhere_suspend path _).trans (currentElsewhere_startCellRun path _ _ _)
        · exact currentElsewhere_startCellRun path _ _ _

theorem keepsFacts_updateRuntime (ctx : Ctx) (path : NodePath) :
    KeepsFacts ctx (ctx.updateRuntime path) := by
  unfold Ctx.updateRuntime
  split
  · exact .refl ctx
  · split
    · exact .refl ctx
    · split
      · exact keepsFacts_suspend path ctx
      · dsimp only
        have hreleased : KeepsFacts ctx (ctx.releaseUpstreamHolds path fun _ => false) :=
          keepsFacts_dropQueued path _ ctx
        refine hreleased.trans ?_
        split
        · split
          · exact .of_eq rfl rfl rfl
          · exact (keepsFacts_suspend path _).trans (keepsFacts_startCellRun path _ _ _)
        · exact keepsFacts_startCellRun path _ _ _

/-- The run ledger of a transformer is not that of a cell. -/
theorem current_updateRuntimes (paths : List NodePath) :
    ∀ {ctx : Ctx} {path : NodePath}, (ctx.node? path).map Node.isCell = some false →
      (paths.foldl (fun ctx path => ctx.updateRuntime path) ctx).runtime.currentRuns.lookup path =
        ctx.runtime.currentRuns.lookup path := by
  induction paths with
  | nil => exact fun _ => rfl
  | cons q paths ih =>
    intro ctx path hcell
    have hnode : (ctx.updateRuntime q).node? path = ctx.node? path :=
      node?_of_graph (graph_updateRuntime ctx q) path
    rw [List.foldl_cons, ih (by rwa [hnode])]
    by_cases hq : path = q
    · obtain ⟨node, hn, hc⟩ := Option.map_eq_some_iff.mp hcell
      subst hq
      rw [updateRuntime_of_transformer hn hc]
    · exact currentElsewhere_updateRuntime ctx q path hq

/-- A fact that has been demanded stays. -/
theorem lookup_pruneFacts {ctx : Ctx} {key : FactKey} (h : key ∈ ctx.usedFacts) :
    ctx.pruneFacts.facts.lookup key = ctx.facts.lookup key := by
  have hcancel : ∀ (keys : List FactKey) (ctx : Ctx),
      (keys.foldl (fun ctx key => ctx.addEffect (.cancelJob key)) ctx).facts = ctx.facts := by
    intro keys
    induction keys with
    | nil => exact fun _ => rfl
    | cons k keys ih => exact fun ctx => ih _
  have herase : ∀ (keys : List FactKey) (facts : AList (fun _ : FactKey => FactValue)), key ∉ keys →
      (keys.foldl (fun facts key => facts.erase key) facts).lookup key = facts.lookup key := by
    intro keys
    induction keys with
    | nil => exact fun _ _ => rfl
    | cons k keys ih =>
      intro facts hkey
      rw [List.mem_cons, not_or] at hkey
      rw [List.foldl_cons, ih _ hkey.2, AList.lookup_erase_ne hkey.1]
  unfold Ctx.pruneFacts
  dsimp only
  rw [hcancel]
  refine herase _ _ fun hstale => ?_
  have hunused := (List.mem_filter.mp hstale).2
  rw [List.contains_iff_mem.mpr h] at hunused
  cases hunused

/-- The nodes of a list, derived in turn. -/
def Ctx.deriveNodes (env : Substrate) (paths : List NodePath) (ctx : Ctx) : Ctx :=
  paths.foldl (fun ctx path => ctx.deriveNode env path) ctx

section Rounds

variable {env : Substrate}

theorem keepsFacts_deriveNodes (paths : List NodePath) (ctx : Ctx) :
    KeepsFacts ctx (ctx.deriveNodes env paths) :=
  KeepsFacts.foldl (fun ctx path => keepsFacts_deriveNode env ctx path) paths ctx

theorem durable_deriveNodes (paths : List NodePath) (ctx : Ctx) :
    (ctx.deriveNodes env paths).durable = ctx.durable :=
  Ctx.durable_foldl (fun ctx path => Ctx.durable_deriveNode env ctx path) paths ctx

/-- A node stays as it is while others are derived. -/
theorem deriveNodes_of_not_mem (paths : List NodePath) :
    ∀ {ctx : Ctx} {q : NodePath}, q ∉ paths → (ctx.deriveNodes env paths).node? q = ctx.node? q ∧
      (ctx.deriveNodes env paths).runtime.currentRuns.lookup q =
        ctx.runtime.currentRuns.lookup q := by
  induction paths with
  | nil => exact fun _ => ⟨rfl, rfl⟩
  | cons path paths ih =>
    intro ctx q hq
    rw [List.mem_cons, not_or] at hq
    have hrest : (ctx.deriveNode env path).deriveNodes env paths = ctx.deriveNodes env (path :: paths) :=
      rfl
    obtain ⟨hnode, hcurrent⟩ := @ih (ctx.deriveNode env path) q hq.2
    rw [← hrest, hnode, hcurrent]
    exact ⟨node?_deriveNode_of_ne env ctx hq.1, currentElsewhere_deriveNode env ctx path q hq.1⟩

theorem Ctx.deriveGraph_eq (sorted : List NodePath) (ctx : Ctx) : ctx.deriveGraph env sorted =
    { (sorted.foldl (fun ctx path => ctx.updateRuntime path)
        (ctx.deriveNodes env (ctx.graph.derivationOrder sorted)).syncEdgePinRefholds.syncAnonymousCurrentRefholds.pruneFacts).syncSupersededRefholds
      with settled := true } := rfl

theorem keepsFacts_syncRefholds {κ ν : Type} [DecidableEq κ] [DecidableEq ν]
    (checksumOf : ν → Checksum) (old wanted : AList (fun _ : κ => ν)) (ctx : Ctx) :
    KeepsFacts ctx (ctx.syncRefholds checksumOf old wanted) :=
  (keepsFacts_increfAll _ ctx).trans (keepsFacts_decrefAll _ _)

theorem facts_deriveGraph {ctx : Ctx} {sorted : List NodePath} {key : FactKey}
    (h : key ∈ (ctx.deriveNodes env (ctx.graph.derivationOrder sorted)).usedFacts) :
    (ctx.deriveGraph env sorted).facts.lookup key =
      (ctx.deriveNodes env (ctx.graph.derivationOrder sorted)).facts.lookup key := by
  rw [Ctx.deriveGraph_eq]
  generalize ctx.deriveNodes env (ctx.graph.derivationOrder sorted) = derived at h ⊢
  have hpins : KeepsFacts derived derived.syncEdgePinRefholds :=
    (keepsFacts_syncRefholds ..).trans (.of_eq rfl rfl rfl)
  have hlinks : KeepsFacts derived.syncEdgePinRefholds
      derived.syncEdgePinRefholds.syncAnonymousCurrentRefholds :=
    (keepsFacts_syncRefholds ..).trans (.of_eq rfl rfl rfl)
  have hkept := hpins.trans hlinks
  have hruns := KeepsFacts.foldl (fun ctx path => keepsFacts_updateRuntime ctx path) sorted
    derived.syncEdgePinRefholds.syncAnonymousCurrentRefholds.pruneFacts
  dsimp only
  rw [(quiet_syncSupersededRefholds _).facts, hruns.facts, lookup_pruneFacts (hkept.used h),
    hkept.facts]

theorem current_deriveGraph {ctx : Ctx} {sorted : List NodePath} {path : NodePath}
    (h : ((ctx.deriveNodes env (ctx.graph.derivationOrder sorted)).node? path).map Node.isCell =
      some false) : (ctx.deriveGraph env sorted).runtime.currentRuns.lookup path =
        (ctx.deriveNodes env (ctx.graph.derivationOrder sorted)).runtime.currentRuns.lookup path := by
  rw [Ctx.deriveGraph_eq]
  generalize ctx.deriveNodes env (ctx.graph.derivationOrder sorted) = derived at h ⊢
  have hbeside := ((frame_syncEdgePinRefholds derived).trans
    (frame_syncAnonymousCurrentRefholds _)).beside.trans (beside_pruneFacts _)
  dsimp only
  rw [(quiet_syncSupersededRefholds _).current, current_updateRuntimes sorted, hbeside.runtime]
  rw [hbeside.kind path]
  exact h

end Rounds

/-! ### Every round -/

section Round

variable {env : Substrate} {mid last : Ctx} {path : NodePath} {seen : NodePath → Prop}

/-- A node that has been derived is what derivation makes of any later state that agrees on what it
has seen and demanded. -/
theorem derived_deriveNode (hagrees : mid.graph.Agrees seen last.graph)
    (hsees : mid.graph.Sees seen path)
    (hfacts : ∀ key ∈ (mid.deriveNode env path).usedFacts,
      last.facts.lookup key = mid.facts.lookup key)
    (hsense : (last.outsideErrors path).sense = (mid.outsideErrors path).sense)
    (hnode : last.node? path = (mid.deriveNode env path).node? path)
    (hcurrent : (last.node? path).map Node.isCell = some false →
      last.runtime.currentRuns.lookup path =
        (mid.deriveNode env path).runtime.currentRuns.lookup path) :
    ∀ node, last.node? path = some node → last.Derived env path node := by
  intro node hlast
  have hfound := hnode.symm.trans hlast
  have hview : (mid.noteDerivation path).view = mid.view := rfl
  have hsessions : (mid.noteDerivation path).sessionsFor path = mid.sessionsFor path := rfl
  unfold Ctx.deriveNode at hfacts hcurrent hfound
  dsimp only at hfacts hcurrent hfound
  generalize mid.noteDerivation path = noted at hfacts hcurrent hfound hview hsessions
  cases hmid : noted.node? path with
  | none =>
    rw [hmid] at hfound
    cases hmid.symm.trans hfound
  | some start =>
    rw [hmid] at hfacts hcurrent hfound
    dsimp only at hfacts hcurrent hfound
    cases hbody : start.body with
    | cell fields =>
      rw [hbody] at hfacts hfound
      dsimp only at hfacts hfound
      have hoverride : (noted.sessionsFor path).filterMap MountSession.senseError =
          (mid.outsideErrors path).sense := by
        rw [hsessions]
        rfl
      have hused : (cellOutcome env mid.view (mid.outsideErrors path).sense path fields).used ⊆
          (noted.deriveCell env path fields).usedFacts := by
        rw [← hview, ← hoverride]
        exact List.Subset.trans (used_report env _ noted) (keepsFacts_applyOutcome env path _ _).used
      have hstays : cellOutcome env last.view (mid.outsideErrors path).sense path fields =
          cellOutcome env mid.view (mid.outsideErrors path).sense path fields :=
        (stays_cellOutcome env hagrees hsees _ fields).eq fun key hkey =>
          hfacts key (hused hkey)
      rw [node?_deriveCell, if_pos rfl, hmid] at hfound
      obtain rfl := Option.some.inj hfound
      refine .cell hbody ?_
      rw [hsense, hstays, hview, hoverride]
      exact congrArg Node.essence (Node.settle_settle env _ start)
    | transformer fields =>
      rw [hbody] at hfacts hcurrent hfound
      dsimp only at hfacts hcurrent hfound
      have hused : (transformerReading env mid.view path fields).used ⊆
          (noted.deriveTransformer env path start fields).usedFacts := by
        rw [← hview]
        exact List.Subset.trans (used_report env _ noted)
          (keepsFacts_deriveTransformer env path start fields noted).used
      obtain ⟨outcome, hderived, hverdict⟩ :=
        (transformerDerived env path start fields noted).outcome
      rw [hderived, if_pos rfl, hmid] at hfound
      obtain rfl := Option.some.inj hfound
      rw [hview] at hverdict hlast ⊢
      set reading := (transformerReading env mid.view path fields).value with hreading
      set written : TransformerFields := { fields with
        pinStates := shownPins reading.pins
        pinReadErrors := keptReadErrors reading.pins fields.pinReadErrors
        blockPins := sortPins (reading.verdict.blocked.map Prod.snd)
        pinBlockReasons := reading.verdict.blocked.foldl (fun reasons entry =>
          Dict.setItem entry.2 entry.1 reasons) [] } with hwritten
      have hpins : ((start.withPins reading).settle env outcome).body = .transformer written := by
        unfold Node.settle Node.withPins Node.mapTransformer
        rw [hbody]
        rfl
      -- the read errors that are left are read as those that there were
      have hkept : transformerReading env mid.view path (fields.inputs written.pinReadErrors) =
          transformerReading env mid.view path fields := transformerReading_kept
      have hstays : transformerReading env last.view path written =
          transformerReading env mid.view path fields := by
        rw [← transformerReading_inputs env last.view path written, ← hkept]
        refine Evaluated.Stays.eq (stays_transformerReading env hagrees hsees _) fun key hkey => ?_
        rw [hkept] at hkey
        exact hfacts key (hused hkey)
      have hcell : (last.node? path).map Node.isCell = some false := by
        rw [hlast]
        unfold Node.isCell
        rw [Option.map_some, hpins]
      refine .transformer outcome hpins ?_ ?_
      · rw [hstays]
        unfold Ctx.Answers
        rw [hcurrent hcell]
        exact hverdict
      · rw [hstays]
        exact Node.written_again env outcome _ start

end Round

/-- The derivation order lists every node once, and after its sources. -/
theorem derivationOrder_spec {g : ContextGraph} {sorted : List NodePath}
    (hsorted : sortPaths g.nodes.keys = some sorted)
    (hacyclic : Reach.Acyclic fun a b => b ∈ g.sources a) :
    (g.derivationOrder sorted).Nodup ∧ PostOrder.SuccsFirst g.sources (g.derivationOrder sorted) := by
  have hmem : ∀ p, p ∈ g.nodes → p ∈ sorted := by
    intro p hp
    unfold sortPaths at hsorted
    split at hsorted
    · rw [← Option.some.inj hsorted, List.mem_insertionSort]
      exact AList.mem_keys.mp hp
    · cases hsorted
  have hspec := @PostOrder.order_spec _ _ g.sources sorted fun p _ source hs => by
    obtain ⟨entry, -, hr⟩ := List.mem_filterMap.mp hs
    obtain ⟨r, hread, rfl⟩ := Option.map_eq_some_iff.mp hr
    exact hmem r.1 (ContextGraph.resolveExisting_mem (l := r.2) hread)
  exact ⟨hspec.2.1, hspec.2.2 hacyclic⟩

theorem Ctx.deriveNodes_append (env : Substrate) (before after : List NodePath) (path : NodePath)
    (ctx : Ctx) : ctx.deriveNodes env (before ++ path :: after) =
      ((ctx.deriveNodes env before).deriveNode env path).deriveNodes env after := by
  unfold Ctx.deriveNodes
  rw [List.foldl_append, List.foldl_cons]

/-- Derivation leaves every node as derivation makes it of the Context that is left. -/
theorem derived_deriveGraph {env : Substrate} {ctx : Ctx} {sorted : List NodePath}
    (hsorted : sortPaths ctx.graph.nodes.keys = some sorted)
    (hacyclic : Reach.Acyclic fun a b => b ∈ ctx.graph.sources a) {path : NodePath} {node : Node}
    (hlast : (ctx.deriveGraph env sorted).node? path = some node) :
    (ctx.deriveGraph env sorted).Derived env path node := by
  obtain ⟨hnodup, hfirst⟩ := derivationOrder_spec hsorted hacyclic
  set order := ctx.graph.derivationOrder sorted with horder
  have hmem : path ∈ order := by
    refine mem_derivationOrder hsorted (AList.lookup_isSome.mp ?_)
    have hdurable := congrArg (fun d => Durable.node d path) (Ctx.durable_deriveGraph env sorted ctx)
    have hfound : (ctx.node? path).map Node.durable = some node.durable :=
      hdurable.symm.trans (congrArg (Option.map Node.durable) hlast)
    obtain ⟨start, hstart, -⟩ := Option.map_eq_some_iff.mp hfound
    rw [show ctx.graph.nodes.lookup path = some start from hstart]
    rfl
  obtain ⟨before, after, hsplit⟩ := List.append_of_mem hmem
  set mid := ctx.deriveNodes env before with hmid
  have hderived : ctx.deriveNodes env order = (mid.deriveNode env path).deriveNodes env after := by
    rw [hsplit, Ctx.deriveNodes_append]
  rw [hsplit] at hnodup hfirst
  have hapart := List.nodup_append.mp hnodup
  have hafter : path ∉ after := (List.nodup_cons.mp hapart.2.1).1
  have hnodes : ∀ q, (ctx.deriveGraph env sorted).node? q = (ctx.deriveNodes env order).node? q :=
    node?_deriveGraph env sorted ctx
  -- the nodes that stand before are as they were when the node was derived
  have hbefore : ∀ q, q ∈ before → (ctx.deriveGraph env sorted).node? q = mid.node? q := by
    intro q hq
    have hrest : q ∉ path :: after := fun hm => hapart.2.2 q hq q hm rfl
    rw [hnodes, hderived]
    exact (@deriveNodes_of_not_mem env (path :: after) mid q hrest).1
  have hdurable : (ctx.deriveGraph env sorted).durable = mid.durable := by
    rw [Ctx.durable_deriveGraph, durable_deriveNodes]
  have hagrees : mid.graph.Agrees (· ∈ before) (ctx.deriveGraph env sorted).graph :=
    agrees_of_durable hdurable hbefore
  have hstart : ctx.graph.Agrees (fun _ => False) mid.graph :=
    agrees_of_durable (durable_deriveNodes before ctx) fun _ => False.elim
  have hsees : mid.graph.Sees (· ∈ before) path := by
    refine ⟨fun source hs => ?_, fun q hq source hs => ?_⟩
    · rw [hstart.sources] at hs
      exact hfirst before path after rfl source hs
    · rw [hstart.sources] at hs
      obtain ⟨first, rest, rfl⟩ := List.append_of_mem hq
      refine List.mem_append_left _ (hfirst first q (rest ++ path :: after) ?_ source hs)
      simp
  have hkept : KeepsFacts (mid.deriveNode env path) (ctx.deriveNodes env order) := by
    rw [hderived]
    exact keepsFacts_deriveNodes after _
  obtain ⟨hnode, hcurrent⟩ := @deriveNodes_of_not_mem env after (mid.deriveNode env path) path hafter
  have hsense : ((ctx.deriveGraph env sorted).outsideErrors path).sense = (mid.outsideErrors path).sense := by
    have hsessions : (ctx.deriveGraph env sorted).mountSessions = mid.mountSessions :=
      congrArg Durable.mountSessions hdurable
    unfold Ctx.outsideErrors Ctx.sessionsFor
    rw [hsessions]
  refine derived_deriveNode hagrees hsees (fun key hkey => ?_) hsense ?_ (fun hcell => ?_) node hlast
  · rw [facts_deriveGraph (hkept.used hkey), ← horder, hkept.facts,
      (keepsFacts_deriveNode env mid path).facts]
  · rw [hnodes, hderived, hnode]
  · rw [current_deriveGraph, ← horder, hderived, hcurrent]
    rw [← horder, ← hnodes]
    exact hcell

end SeamlessWorkflow
