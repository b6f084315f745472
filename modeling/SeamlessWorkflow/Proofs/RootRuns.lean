import SeamlessWorkflow.Proofs.RootCopies

/-!
# One root input in every reachable Context

Every turn leaves one root input in every cell, and a successful root write leaves the input that it
has written, unless a root expression or a stored value is in the way of the write.
-/

namespace SeamlessWorkflow

open Program Relation

section Turns

variable {env : Substrate} {start : Ctx}

/-! ## Attachments -/

/-- One root input in every cell, and no root expression at certain paths. -/
structure Ctx.Plain (ctx : Ctx) (paths : NodePath → Prop) : Prop where
  oneRoot : ctx.OneRoot
  expression : ∀ path, paths path → ctx.expressionAt path = none

theorem FewerRoots.plain {a b : Ctx} (h : FewerRoots a b) {paths : NodePath → Prop}
    (hp : a.Plain paths) : b.Plain paths :=
  ⟨h.oneRoot hp.oneRoot, fun path hpath => h.expression (hp.expression path hpath)⟩

/-- The program keeps a single root input in every cell, and expressions away from certain paths. -/
abbrev KeepsPlain (paths : NodePath → Prop) {α : Type} (program : M α) : Prop :=
  Keeps (Ctx.Plain · paths) program

theorem KeepsPlain.of_addsNone {α : Type} {program : M α} {paths : NodePath → Prop}
    (h : ∀ start, AddsNone start program) : KeepsPlain paths program := by
  intro ctx hp
  have := h ctx ctx (.refl ctx)
  cases hr : program ctx with
  | ok a ctx' => rw [hr] at this; exact this.plain hp
  | error e ctx' => rw [hr] at this; exact this.plain hp

theorem keepsPlain_mountSense {paths : NodePath → Prop} (path : NodePath) (checksum : Checksum)
    (hpath : paths path) : KeepsPlain paths (mountSense env path checksum) := by
  refine Triple.inspect (inspects_validateWrite path [] false) (fun _ h => h) fun _ => ?_
  refine Triple.inspect (inspects_cellAt path) (fun _ h => h.1) fun fields => ?_
  refine triple_each fun ctx ⟨⟨hplain, hvalid⟩, _⟩ => ?_
  have hx := hplain.expression path hpath
  refine (setCellRoot_result path (some checksum) fields.config.celltype false).conseq (fun _ h => h)
    (fun _ ctx' hset => ?_) fun ctx' hf => hf.plain hplain
  have hedges : ctx.graph.cleared path (false = true) = ctx.graph.edges := if_neg (by simp)
  rw [hedges] at hset
  refine ⟨(hset.stores hplain.oneRoot hx (.refl _) (untargeted_of_validate hvalid)).1,
    fun q hq => ?_⟩
  rw [hset.expressionAt]
  by_cases hqp : q = path
  · rw [if_pos hqp]
    exact hx
  · rw [if_neg hqp]
    exact hplain.expression q hq

/-- Does an observation write a value into the node? -/
def Observation.writes : Observation → Bool
  | .sense _ | .senseNull | .senseNullError => true
  | .senseError _ | .clearError | .nothing => false

theorem addsNone_updateSession (path : NodePath) (driver : String) (f : Ctx → MountSession → MountSession) :
    AddsNone start (modify fun ctx => ctx.updateSession path driver (f ctx) : M Unit) := by
  refine addsNone_modify fun ctx => .of_graph ?_
  unfold Ctx.updateSession
  split <;> rfl

theorem keepsPlain_applyObservation {paths : NodePath → Prop} (path : NodePath) (driver : String)
    (seen : Observation) (hpath : seen.writes = true → paths path) :
    KeepsPlain paths (applyObservation env path driver seen) := by
  cases seen with
  | sense c => exact keepsPlain_mountSense path c (hpath rfl)
  | senseNull => exact keepsPlain_mountSense path _ (hpath rfl)
  | senseNullError =>
    exact Keeps.bind (keepsPlain_mountSense path _ (hpath rfl)) fun _ =>
      KeepsPlain.of_addsNone fun s => addsNone_updateSession path driver _
  | senseError reason => exact KeepsPlain.of_addsNone fun s => addsNone_updateSession path driver _
  | clearError => exact KeepsPlain.of_addsNone fun s => addsNone_updateSession path driver _
  | nothing => exact Keeps.pure

theorem keepsPlain_mountAttach {paths : NodePath → Prop} (path : NodePath) (attachment : Attachment)
    (seen : Observation) (hpath : seen.writes = true → paths path) :
    KeepsPlain paths (mountAttach env path attachment seen) := by
  refine Keeps.bind (keeps_mountNode path) fun node => Keeps.bind Keeps.get fun ctx => ?_
  refine Keeps.bind (keeps_refuseIf _ _ _) fun _ => Keeps.bind (keeps_refuseIf _ _ _) fun _ => ?_
  refine Keeps.bind (keeps_refuseWith _) fun _ => ?_
  refine Keeps.bind (KeepsPlain.of_addsNone fun s => addsNone_modifyNode path fun node => ?_)
    fun _ => ?_
  · cases attachment <;> rfl
  · refine Keeps.bind (KeepsPlain.of_addsNone fun s => addsNone_modify fun _ => .of_graph rfl)
      fun _ => ?_
    exact Keeps.bind (keepsPlain_applyObservation path _ seen hpath) fun _ =>
      KeepsPlain.of_addsNone fun s => addsNone_deriveAll

theorem keepsPlain_mountObserved {paths : NodePath → Prop} (path : NodePath) (driver : String)
    (seen : Observation) (hpath : seen.writes = true → paths path) :
    KeepsPlain paths (mountObserved env path driver seen) := by
  refine Keeps.bind Keeps.get fun ctx => keeps_onlyIf (Keeps.tryCatch ?_ fun _ => Keeps.pure)
  exact Keeps.bind (keepsPlain_applyObservation path driver seen hpath) fun _ =>
    KeepsPlain.of_addsNone fun s => addsNone_deriveAll

/-! ## The whole graph -/

theorem sameRoots_renumber (g : ContextGraph) (n : Nat) {a b : Ctx} (ha : a.graph = g)
    (hb : b.graph = g.renumber n) : SameRoots a b := by
  have loop : ∀ (entries : List (NodePath × Nat)) (g : ContextGraph),
      SameRoots ({ graph := g } : Ctx) ({ graph := entries.foldl (fun g entry =>
        g.updateNode entry.1 fun node => { node with ident := entry.2 }) g } : Ctx) := by
    intro entries
    induction entries with
    | nil => exact fun g => .refl _
    | cons entry entries ih =>
      intro g
      have hstep := sameRoots_updateNode entry.1 (f := fun node => { node with ident := entry.2 })
        (fun _ => rfl) ({ graph := g } : Ctx)
      refine SameRoots.trans (b := ({ graph := g.updateNode entry.1 fun node =>
        { node with ident := entry.2 } } : Ctx)) ?_ (ih _)
      exact hstep.trans (.of_graph rfl)
  exact ((SameRoots.of_graph ha.symm).trans (loop _ g)).trans (.of_graph hb)

theorem setGraph_result {doc : Document} {graph : ContextGraph}
    (hdoc : prepareGraph env doc = .ok graph) (hroots : doc.RootsUnwired)
    (attachments : List (NodePath × Attachment × Observation)) :
    Triple (· = start) (setGraph env graph attachments) (fun _ => Ctx.OneRoot) Ctx.OneRoot := by
  suffices h : Triple (· = start) (setGraph env graph attachments)
      (fun _ => (Ctx.Plain · fun _ => True)) (Ctx.Plain · fun _ => True) from
    h.conseq (fun _ h => h) (fun _ _ h => h.oneRoot) fun _ h => h.oneRoot
  refine Triple.bind (R := fun _ => (Ctx.Plain · fun _ => True)) (Triple.modify fun ctx _ => ?_)
    fun _ => ?_
  · obtain ⟨hone, hexpression⟩ := loaded_oneRoot hdoc hroots
      (rfl : ({ graph := graph } : Ctx).graph = graph)
    have hsame : SameRoots ({ graph := graph } : Ctx) (ctx.replaceGraph env graph) :=
      sameRoots_renumber graph ctx.nextIdent rfl rfl
    exact hsame.fewer.plain ⟨hone, fun path _ => hexpression path⟩
  · refine Triple.bind (KeepsPlain.of_addsNone fun s => addsNone_deriveAll) fun _ => ?_
    exact Keeps.forM fun entry _ => keepsPlain_mountAttach _ _ _ fun _ => trivial

/-! ## Messages -/

theorem addsNone_updateRun (path : NodePath) (generation : Nat) (f : RunRecord → RunRecord) :
    AddsNone start (modify (·.updateRun path generation f) : M Unit) := by
  refine addsNone_modify fun ctx => .of_graph ?_
  unfold Ctx.updateRun
  split
  · rfl
  · split <;> rfl

theorem addsNone_transformationStarted (path : NodePath) (generation : Nat) (identity : Checksum) :
    AddsNone start (transformationStarted env path generation identity) := by
  refine Keeps.bind Keeps.get fun ctx => keeps_onlyIf ?_
  exact Keeps.bind (addsNone_updateRun path generation _) fun _ => addsNone_deriveAll

theorem addsNone_transformationFinished (path : NodePath) (generation : Nat)
    (identity result : Option Checksum) (error : Option Error) :
    AddsNone start (transformationFinished env path generation identity result error) := by
  refine Keeps.bind Keeps.get fun ctx => keeps_onlyIf ?_
  refine Keeps.bind (addsNone_updateRun path generation _) fun _ => ?_
  refine Keeps.bind (addsNone_modify fun ctx => ?_) fun _ => addsNone_deriveAll
  exact .of_durable (Ctx.durable_syncSupersededRefholds ctx)

theorem addsNone_clearException (path : NodePath) : AddsNone start (clearException env path) := by
  refine Keeps.bind Keeps.get fun ctx => keeps_onlyIf ?_
  refine Keeps.bind (keeps_nodeAt path) fun node => ?_
  refine Keeps.bind (addsNone_modify fun ctx => ?_) fun _ => keeps_onlyIf ?_
  · refine FewerRoots.trans (b := ctx.modifyGraph fun g => g.updateNode path
      (Node.mapTransformer fun fields => { fields with pinReadErrors := ∅ }))
      (sameRoots_updateNode path (cellFields_mapTransformer _) ctx).fewer (.of_graph rfl)
  · refine Keeps.bind (addsNone_modify fun _ => .of_graph rfl) fun _ => ?_
    refine Keeps.bind (addsNone_modify fun ctx => ?_) fun _ => ?_
    · exact .of_durable (Ctx.durable_cancelRuns _ _)
    · refine Keeps.bind (addsNone_modifyNode path ?_) fun _ => addsNone_deriveAll
      exact fun _ => rfl

theorem addsNone_prune (path : Option NodePath) : AddsNone start (prune path) := by
  refine addsNone_modify fun ctx => .of_durable ?_
  rw [Ctx.durable_syncSupersededRefholds]
  exact Ctx.durable_cancelRuns _ _

theorem addsNone_expireRun (path : NodePath) (generation : Nat) :
    AddsNone start (expireRun path generation) := by
  refine addsNone_modify fun ctx => .of_durable ?_
  rw [Ctx.durable_syncSupersededRefholds, Ctx.durable_dropQueued]

theorem addsNone_acceptFact (key : FactKey) (value : FactValue) :
    AddsNone start (acceptFact env key value) := by
  refine Keeps.bind Keeps.get fun ctx => keeps_onlyIf ?_
  exact Keeps.bind (addsNone_modify fun _ => .of_graph rfl) fun _ => addsNone_deriveAll

theorem oneRoot_empty {ctx : Ctx} (h : ctx.graph = {}) : ctx.OneRoot := by
  have hcell : ∀ path, ctx.cell? path = none := by
    intro path
    unfold Ctx.cell? Ctx.node?
    rw [h]
    rfl
  refine ⟨fun edge he => ?_, ?_, fun path => Or.inl ?_, fun edge he => ?_⟩
  · rw [h] at he
    exact absurd he List.not_mem_nil
  · rw [h]
    exact List.nodup_nil
  · unfold Ctx.expressionAt
    rw [hcell]
    rfl
  · rw [h] at he
    exact absurd he List.not_mem_nil

end Turns

/-! ## The condition on a run -/

/-- When an assignment leaves one root input in every cell. -/
def Ctx.AssignsRoot (ctx : Ctx) (path : NodePath) : AssignValue → Prop
  | .subcontext sourcePrefix => path ∉ ctx.graph.nodes → ctx.CopiesRoots sourcePrefix path
  | .endpoint _ => ctx.WiresRoot path
  | .checksum _ => ctx.expressionAt path = none
  | .cell cell => ctx.BuilderReady path cell.upstream cell.input
  | .transformer transformer => ∀ arg ∈ transformer.args, (argPin arg).2.isEndpoint = true →
      ctx.Unrooted (path ++ [.key (argPin arg).1])
  | .context | .config _ => True

instance (ctx : Ctx) (path : NodePath) (value : AssignValue) : Decidable (ctx.AssignsRoot path value) := by
  unfold Ctx.AssignsRoot
  split <;> infer_instance

/-- When a turn leaves one root input in every cell. A new value does not clear a root expression, a
builder that reads from another one does not clear a stored value, and a derivation that fails keeps
the stored value beside the new edge. -/
def Turn.KeepsRoots (turn : Turn) (ctx : Ctx) : Prop :=
  match turn with
  | .assign path value => ctx.AssignsRoot path value
  | .cellOperation path localPath value _ _ => ctx.WritesRoot path localPath value
  | .commitUpdate path .. | .cellDeletePath path _ => ctx.expressionAt path = none
  | .setTransformerCode path (.endpoint _) => ctx.Unrooted (path ++ [.key "code"])
  | .setTransformerPin path pin (.endpoint _) _ _ => ctx.Unrooted (path ++ [.key pin])
  | .setGraph doc _ => doc.RootsUnwired
  | .mountAttach path _ seen | .mountObserved path _ seen =>
    seen.writes = true → ctx.expressionAt path = none
  | _ => True

instance (turn : Turn) (ctx : Ctx) : Decidable (turn.KeepsRoots ctx) := by
  delta Turn.KeepsRoots
  refine Turn.casesOn turn ?_ ?_ ?_ ?_ ?_ ?_ (fun path code => ?_) (fun path pin value inputCelltype detach => ?_)
    ?_ ?_ ?_ ?_ ?_ ?_ ?_ ?_ ?_ ?_ ?_ ?_
  case refine_7 => exact CodeValue.casesOn code (fun _ => inferInstance) fun _ => inferInstance
  case refine_8 => exact WriteValue.casesOn value (fun _ => inferInstance) fun _ => inferInstance
  all_goals
    intros
    infer_instance

/-- Every turn of a run meets the condition. -/
def KeepsRoots (sys : System) (event : Event) : Prop :=
  match event with
  | .turn t now missing => t.KeepsRoots (sys.ctx.arrive now missing)
  | _ => True

instance (sys : System) (event : Event) : Decidable (KeepsRoots sys event) := by
  delta KeepsRoots
  refine Event.casesOn event ?_ ?_ ?_ ?_ ?_
  all_goals
    intros
    infer_instance

/-- What a successful root write leaves: the cell uses the input that was written. An edit is a root
write when it replaces the value that it was computed from. -/
def Turn.Wrote (env : Substrate) (start ctx : Ctx) : Turn → Prop
  | .assign path (.endpoint ep) => ctx.UsesEdge env path ep
  | .assign path (.checksum c) => ctx.UsesWritten env path (.checksum (some c))
  | .assign path (.cell cell) =>
    ctx.Reads env (· ∉ start.graph.nodes) cell.upstream path cell.recipe cell.input
  | .cellOperation path localPath value _ _ => localPath = [] → (start.cell? path).isSome = true →
      ctx.UsesWritten env path value
  | .commitUpdate path localPath checksum base revision _ => localPath = [] →
      (start.cell? path).isSome = true → (start.node? path).map Node.currentChecksum = some base →
        start.revision path = revision → ctx.UsesWritten env path (.checksum (some checksum))
  | .cellDeletePath path _ => (start.cell? path).isSome = true →
      ctx.UsesWritten env path (.checksum none)
  | _ => True

theorem Turn.Wrote.same {env : Substrate} {start a b : Ctx} {turn : Turn}
    (h : turn.Wrote env start a) (hs : SameRoots a b) : turn.Wrote env start b := by
  cases turn with
  | assign path value =>
    cases value with
    | endpoint ep => exact Ctx.UsesEdge.same h hs
    | checksum c =>
      have h : a.UsesWritten env path (.checksum (some c)) := h
      exact h.same hs
    | cell cell =>
      have h : a.Reads env (· ∉ start.graph.nodes) cell.upstream path cell.recipe cell.input := h
      exact h.transport (P := fun _ => True) (fun _ hq => ⟨hq, trivial⟩)
        (fun _ _ _ ht => hs.takes ht) trivial
    | _ => trivial
  | cellOperation path localPath value detach inputCelltype =>
    exact fun hl hcell => (h hl hcell).same hs
  | commitUpdate path localPath checksum base revision detach =>
    exact fun hl hcell hbase hrevision => (h hl hcell hbase hrevision).same hs
  | cellDeletePath path localPath => exact fun hcell => (h hcell).same hs
  | _ => trivial

section Run

variable {env : Substrate} {start : Ctx}

/-- A program that leaves one root input in every cell, and what the turn wrote. -/
abbrev Writes (env : Substrate) (start : Ctx) (turn : Turn) {α : Type} (program : M α) : Prop :=
  Triple (· = start) program (fun _ ctx => ctx.OneRoot ∧ turn.Wrote env start ctx) Ctx.OneRoot

theorem cell?_of_node {path : NodePath} {node : Node} (h : start.node? path = some node) :
    (start.cell? path).isSome = node.isCell := by
  unfold Ctx.cell?
  rw [h]
  show node.cellFields.isSome = node.isCell
  unfold Node.isCell Node.cellFields
  cases node.body with
  | cell fields => rfl
  | transformer fields => rfl

theorem writes_raise {turn : Turn} (ho : start.OneRoot) (kind : ErrorKind) (text : String) :
    Writes env start turn (raise kind text : M Unit) := Triple.throw fun _ h => h ▸ ho

theorem writes_assignCell {path : NodePath} (value : AssignValue) (ho : start.OneRoot)
    (hcell : (start.cell? path).isSome = true) (hv : start.AssignsRoot path value) :
    Writes env start (.assign path value) (assignCell env path value) := by
  have hrefused : Writes env start (.assign path value) (do
      validateWrite path [] true
      modify (·.clearSenseErrors path)
      raise .typeError "not a checksum" : M Unit) := by
    refine Triple.bind (R := fun _ => Ctx.OneRoot) ((keeps_validateWrite path [] true).conseq
      (fun _ h => h ▸ ho) (fun _ _ h => h) fun _ h => h) fun _ => ?_
    refine Triple.bind (R := fun _ => Ctx.OneRoot) (oneRoot_of_addsNone fun s =>
      addsNone_clearSenseErrors path) fun _ => Triple.throw fun _ h => h
  cases value with
  | endpoint ep =>
    exact (addEndpointEdge_whole ep true ho hv).conseq (fun _ h => h)
      (fun _ ctx h => ⟨h.1, h.2 hcell⟩) fun _ h => h
  | cell cell =>
    exact (replaceCellFromBuilder_result cell.upstream ho hcell hv).conseq (fun _ h => h)
      (fun _ ctx h => ⟨h.oneRoot, h.reads⟩) fun _ h => h
  | checksum c =>
    exact (cellOperation_result path [] (.checksum (some c)) true none ho hv).conseq (fun _ h => h)
      (fun _ ctx h => ⟨h.1, h.2 rfl hcell⟩) fun _ h => h
  | _ => exact hrefused

theorem writes_assignTransformer {path : NodePath} (value : AssignValue) (ho : start.OneRoot)
    (hcell : start.cell? path = none) (hv : start.AssignsRoot path value) :
    Writes env start (.assign path value) (assignTransformer env path value) := by
  cases value with
  | endpoint ep => exact replaceTransformerBySource_result path ep ho hcell
  | transformer transformer =>
    refine (replaceTransformerFromBuilder_result path transformer ⟨ho, ?_⟩).conseq (fun _ h => h)
      (fun _ ctx h => ⟨h, trivial⟩) fun _ h => h
    rintro p ⟨arg, harg, hep, rfl⟩
    exact hv arg harg hep
  | config cfg =>
    exact (oneRoot_of_addsNone fun s => addsNone_setCode path cfg).conseq (fun _ h => h ▸ ho)
      (fun _ ctx h => ⟨h, trivial⟩) fun _ h => h
  | _ => exact writes_raise ho _ _

theorem writes_assignNew {path : NodePath} (value : AssignValue) (ho : start.OneRoot)
    (hnew : path ∉ start.graph.nodes) (hv : start.AssignsRoot path value) :
    Writes env start (.assign path value) (assignNew env path value) := by
  cases value with
  | context =>
    refine Triple.modify fun ctx h => ⟨?_, trivial⟩
    rw [h]
    have hsame : SameRoots start (start.modifyGraph fun g => g.addNamespace path) :=
      ⟨rfl, fun _ => Iff.rfl, fun _ => rfl⟩
    exact oneRoot_same hsame ho
  | subcontext sourcePrefix =>
    exact (copySubcontext_result sourcePrefix path ho (hv hnew)).conseq (fun _ h => h)
      (fun _ ctx h => ⟨h, trivial⟩) fun _ h => h
  | cell cell => exact createCellFromBuilder_result cell ho hv
  | transformer transformer =>
    refine (createTransformerFromBuilder_result path transformer ⟨ho, ?_⟩).conseq (fun _ h => h)
      (fun _ ctx h => ⟨h, trivial⟩) fun _ h => h
    rintro p ⟨arg, harg, hep, rfl⟩
    exact hv arg harg hep
  | config cfg =>
    exact (oneRoot_of_addsNone fun s => addsNone_createTransformer path cfg).conseq
      (fun _ h => h ▸ ho) (fun _ ctx h => ⟨h, trivial⟩) fun _ h => h
  | checksum c =>
    refine Triple.bind ((createCell_result path {}).conseq (fun _ h => h) (fun _ _ h => h)
      fun _ h => h ▸ ho) fun _ => ?_
    refine triple_each fun made hmade => ?_
    exact (cellOperation_result path [] (.checksum (some c)) true none (hmade.fewer.oneRoot ho)
      hmade.unrooted.expression).conseq (fun _ h => h)
        (fun _ ctx h => ⟨h.1, h.2 rfl hmade.cell?_isSome⟩) fun _ h => h
  | endpoint ep =>
    refine Triple.bind (R := fun _ ctx => ctx = start) ((keeps_refuseIf _ _ _).conseq (fun _ h => h)
      (fun _ _ h => h) fun _ h => h ▸ ho) fun _ => ?_
    refine Triple.bind (R := fun _ ctx => ctx = start) ((keeps_endpointCelltype ep).conseq
      (fun _ h => h) (fun _ _ h => h) fun _ h => h ▸ ho) fun celltype => ?_
    refine Triple.bind (R := fun _ ctx => ctx = start) ((keeps_checkDeepLink _ _ _).conseq
      (fun _ h => h) (fun _ _ h => h) fun _ h => h ▸ ho) fun _ => ?_
    refine Triple.bind ((createCell_result path { celltype := celltype }).conseq (fun _ h => h)
      (fun _ _ h => h) fun _ h => h ▸ ho) fun _ => ?_
    refine triple_each fun made hmade => ?_
    refine (addEndpointEdge_root ep false (hmade.fewer.oneRoot ho) hmade.cell?_isSome
      hmade.unrooted.expression (Or.inl hmade.unrooted.producer)).conseq (fun _ h => h)
        (fun _ ctx ⟨hone, _, edge, hd, ht⟩ => ?_) fun _ h => h
    exact ⟨hone, edge, hd, ht.uses env⟩

theorem writes_assign {path : NodePath} (value : AssignValue) (ho : start.OneRoot)
    (hv : start.AssignsRoot path value) :
    Writes env start (.assign path value) (assign env path value) := by
  refine Triple.bind (R := fun _ ctx => ctx = start) ((keeps_refuseIf _ _ _).conseq (fun _ h => h)
    (fun _ _ h => h) fun _ h => h ▸ ho) fun _ => ?_
  refine Triple.bind (R := fun _ ctx => ctx = start) ((keeps_refuseIf _ _ _).conseq (fun _ h => h)
    (fun _ _ h => h) fun _ h => h ▸ ho) fun _ => ?_
  refine Triple.bind (R := fun _ ctx => ctx.OneRoot ∧ (Turn.assign path value).Wrote env start ctx) ?_
    fun _ => ?_
  · refine Triple.get_bind fun ctx => ?_
    refine Triple.assume (fun _ h => h.1 ▸ h.2) fun hctx => ?_
    subst hctx
    refine Triple.conseq (P := (· = ctx)) ?_ (fun _ h => h.1) (fun _ _ h => h) fun _ h => h
    cases hnode : ctx.node? path with
    | some node =>
      have hkind := cell?_of_node hnode
      dsimp only
      refine Triple.ite (fun hc => ?_) fun hc => ?_
      · exact writes_assignCell value ho (by rw [hkind]; exact hc) hv
      · refine writes_assignTransformer value ho ?_ hv
        cases hf : ctx.cell? path with
        | none => rfl
        | some fields =>
          rw [hf] at hkind
          exact absurd hkind.symm hc
    | none =>
      refine writes_assignNew value ho ?_ hv
      rw [← AList.lookup_isSome]
      show ¬ (ctx.node? path).isSome = true
      rw [hnode]
      simp
  · refine (deriveAll_inputs (Q := fun ctx => ctx.OneRoot ∧
      (Turn.assign path value).Wrote env start ctx) ?_).conseq (fun _ h => h) (fun _ _ h => h)
        fun _ h => h.1
    exact fun a b hs h => ⟨oneRoot_same hs h.1, h.2.same hs⟩

theorem writes_operation (turn : Turn) (ho : start.OneRoot) (hk : turn.KeepsRoots start) :
    Writes env start turn (operation env turn) := by
  have adds : ∀ {program : M Unit}, (∀ start, AddsNone start program) →
      Triple (· = start) program (fun _ ctx => ctx.OneRoot ∧ True) Ctx.OneRoot := fun h =>
    (oneRoot_of_addsNone h).conseq (fun _ h => h ▸ ho) (fun _ _ h => ⟨h, trivial⟩) fun _ h => h
  have spares : ∀ {program : M Unit} {p : NodePath}, start.Unrooted p →
      KeepsSpare (· = p) program →
      Triple (· = start) program (fun _ ctx => ctx.OneRoot ∧ True) Ctx.OneRoot := fun hu h =>
    h.conseq (fun _ hs => hs ▸ ⟨ho, fun path hp => hp ▸ hu⟩) (fun _ _ h => ⟨h.oneRoot, trivial⟩)
      fun _ h => h
  have plain : ∀ {program : M Unit} {c : Prop} {path : NodePath}, (c → start.expressionAt path = none) →
      KeepsPlain (fun p => c ∧ p = path) program →
      Triple (· = start) program (fun _ ctx => ctx.OneRoot ∧ True) Ctx.OneRoot := fun hx h =>
    h.conseq (fun _ hs => hs ▸ ⟨ho, fun p hp => hp.2 ▸ hx hp.1⟩) (fun _ _ h => ⟨h.oneRoot, trivial⟩)
      fun _ h => h.oneRoot
  cases turn with
  | assign path value => exact writes_assign value ho hk
  | delete path => exact adds fun s => addsNone_delete path
  | cellOperation path localPath value detach inputCelltype =>
    exact cellOperation_result path localPath value detach inputCelltype ho hk
  | updateBase path localPath detach =>
    exact adds fun s => Keeps.bind (keeps_updateBase path localPath detach) fun _ => Keeps.pure
  | commitUpdate path localPath checksum base revision detach =>
    exact Triple.bind (commitUpdate_result path localPath checksum base revision detach ho hk)
      fun _ => Triple.pure fun _ h => h
  | cellDeletePath path localPath => exact cellDeletePath_result path localPath ho hk
  | setTransformerCode path code =>
    cases code with
    | config cfg => exact adds fun s => addsNone_setCode path cfg
    | endpoint ep =>
      have hspares : KeepsSpare (· = path ++ [.key "code"])
          (setTransformerCode env path (.endpoint ep)) :=
        spares_setTransformerCode path _ fun _ _ => rfl
      exact spares hk hspares
  | setTransformerPin path pin value inputCelltype detach =>
    cases value with
    | endpoint ep =>
      have hspares : KeepsSpare (· = path ++ [.key pin])
          (setTransformerPin env path pin (.endpoint ep) inputCelltype detach) :=
        spares_setTransformerPin path pin _ _ _ fun _ _ => rfl
      exact spares hk hspares
    | checksum c =>
      have hspares : KeepsSpare (fun _ => False)
          (setTransformerPin env path pin (.checksum c) inputCelltype detach) := by
        refine spares_setTransformerPin path pin _ _ _ fun ep hep => ?_
        cases hep
      exact hspares.conseq (fun _ hs => hs ▸ ⟨ho, fun _ hp => hp.elim⟩)
        (fun _ _ h => ⟨h.oneRoot, trivial⟩) fun _ h => h
  | deleteTransformerPin path pin => exact adds fun s => addsNone_deleteTransformerPin path pin
  | recordPinReadError path pin readError =>
    exact adds fun s => addsNone_recordPinReadError path pin readError
  | publishConfig path revision config =>
    exact adds fun s => Keeps.bind (addsNone_publishConfig path revision config) fun _ => Keeps.pure
  | setGraph doc attachments =>
    delta operation
    dsimp only
    cases hg : prepareGraph env doc with
    | ok graph =>
      exact (setGraph_result hg hk attachments).conseq (fun _ h => h) (fun _ _ h => ⟨h, trivial⟩)
        fun _ h => h
    | error e => exact Triple.throw fun _ h => h ▸ ho
  | mountAttach path attachment seen =>
    exact plain hk (keepsPlain_mountAttach path attachment seen fun hw => ⟨hw, rfl⟩)
  | mountDetach path driver =>
    exact adds fun s => addsNone_of_keepsInputs fun _ => keepsInputs_mountDetach path driver
  | mountObserved path driver seen =>
    exact plain hk (keepsPlain_mountObserved path driver seen fun hw => ⟨hw, rfl⟩)
  | clearException path => exact adds fun s => addsNone_clearException path
  | prune path => exact adds fun s => addsNone_prune path
  | expireRun path generation => exact adds fun s => addsNone_expireRun path generation
  | acceptFact key value => exact adds fun s => addsNone_acceptFact key value
  | close =>
    refine Triple.modify fun ctx _ => ⟨oneRoot_empty rfl, trivial⟩

theorem oneRoot_arrive {ctx : Ctx} (now : Nat) (missing : List Checksum) (h : ctx.OneRoot) :
    (ctx.arrive now missing).OneRoot := by
  have hsame : SameRoots ctx (ctx.arrive now missing) := .of_graph rfl
  exact oneRoot_same hsame h

/-- What the operation of a turn leaves, the turn leaves: only the mounts are checked after it. -/
theorem oneRoot_turn {sys : System} {program : M Unit} {Q : Ctx → Prop} {now : Nat}
    {missing : List Checksum} (hQ : ∀ a b, SameRoots a b → Q a → Q b) (ho : sys.ctx.OneRoot)
    (h : Triple (· = sys.ctx.arrive now missing) program (fun _ ctx => ctx.OneRoot ∧ Q ctx)
      Ctx.OneRoot) :
    (sys.turn env program now missing).ctx.OneRoot ∧
      ((sys.reply env program now missing).isSome = true → Q (sys.turn env program now missing).ctx) := by
  show (sys.ctx.runTurn env program now missing).2.OneRoot ∧
    ((sys.ctx.runTurn env program now missing).1.isSome = true →
      Q (sys.ctx.runTurn env program now missing).2)
  unfold Ctx.runTurn
  by_cases hp : sys.ctx.poisoned = true
  · rw [if_pos hp]
    exact ⟨ho, fun hs => absurd hs (by simp)⟩
  · rw [if_neg hp]
    have hrun := h _ rfl
    cases hr : program (sys.ctx.arrive now missing) with
    | error e ctx =>
      rw [hr] at hrun
      have hafter : SameRoots ctx (Program.finalState (afterTurn env ctx)) := by
        have hkeeps : KeepsInputs ctx (afterTurn env) := keepsInputs_afterTurn
        have := hkeeps ctx (.refl ctx)
        cases ha : afterTurn env ctx with
        | ok u ctx' => rw [ha] at this; exact this
        | error e ctx' => rw [ha] at this; exact this
      exact ⟨oneRoot_same hafter hrun, fun hs => absurd hs (by simp)⟩
    | ok a ctx =>
      rw [hr] at hrun
      have hkeeps : KeepsInputs ctx (afterTurn env) := keepsInputs_afterTurn
      have hafter := hkeeps ctx (.refl ctx)
      dsimp only
      cases ha : afterTurn env ctx with
      | ok u ctx' =>
        rw [ha] at hafter
        exact ⟨oneRoot_same hafter hrun.1, fun _ => hQ _ _ hafter hrun.2⟩
      | error e ctx' =>
        rw [ha] at hafter
        exact ⟨oneRoot_same hafter hrun.1, fun hs => absurd hs (by simp)⟩

theorem oneRoot_turn_of_addsNone {sys : System} {program : M Unit} {now : Nat}
    {missing : List Checksum} (ho : sys.ctx.OneRoot) (h : ∀ start, AddsNone start program) :
    (sys.turn env program now missing).ctx.OneRoot := by
  refine (oneRoot_turn (Q := fun _ => True) (fun _ _ _ h => h) ho ?_).1
  exact (oneRoot_of_addsNone h).conseq (fun _ hs => hs ▸ oneRoot_arrive now missing ho)
    (fun _ _ h => ⟨h, trivial⟩) fun _ h => h

theorem oneRoot_operation {sys : System} {turn : Turn} (now : Nat) (missing : List Checksum)
    (ho : sys.ctx.OneRoot)
    (hk : turn.KeepsRoots (sys.ctx.arrive now missing)) :
    (sys.turn env (operation env turn) now missing).ctx.OneRoot ∧
      ((sys.reply env (operation env turn) now missing).isSome = true →
        turn.Wrote env sys.ctx (sys.turn env (operation env turn) now missing).ctx) := by
  refine oneRoot_turn (Q := fun ctx => turn.Wrote env sys.ctx ctx)
    (fun _ _ hs h => Turn.Wrote.same h hs) ho ?_
  have hstart : Ctx.OneRoot (sys.ctx.arrive now missing) := oneRoot_arrive now missing ho
  exact writes_operation turn hstart hk

theorem oneRoot_step {sys next : System} {event : Event} (ho : sys.ctx.OneRoot)
    (hc : KeepsRoots sys event) (hs : sys.step env event = some next) : next.ctx.OneRoot := by
  unfold System.step at hs
  cases event with
  | turn t now missing =>
    cases hs
    exact (oneRoot_operation now missing ho hc).1
  | started run identity now =>
    dsimp only at hs
    split at hs
    · cases hs
      exact oneRoot_turn_of_addsNone ho fun s => addsNone_transformationStarted _ _ _
    · cases hs
  | finished run identity outcome now =>
    dsimp only at hs
    split at hs
    · cases hs
      exact oneRoot_turn_of_addsNone ho fun s => addsNone_transformationFinished _ _ _ _ _
    · cases hs
  | cancelled run =>
    dsimp only at hs
    split at hs
    · cases hs
      exact ho
    · cases hs
  | posted message now =>
    dsimp only at hs
    split at hs
    · cases hs
      exact oneRoot_turn_of_addsNone ho fun s => addsNone_transformationFinished _ _ _ _ _
    · cases hs

end Run

/-- A cell has one root input at most, and a turn that meets the condition and succeeds leaves the
root input that it has written. -/
structure System.KeepsRootInput (env : Substrate) (condition : System → Event → Prop)
    (sys : System) : Prop where
  rootInputs : ∀ path, sys.ctx.rootInputs path ≤ 1
  wrote : ∀ turn now missing, condition sys (.turn turn now missing) →
    (sys.reply env (operation env turn) now missing).isSome = true →
      turn.Wrote env sys.ctx (sys.turn env (operation env turn) now missing).ctx

/-- In every reachable state a cell has one root input at most, and a root write leaves the input it
has written, when no turn writes beside a root expression or a stored value that it does not clear. -/
theorem reachable_keepsRootInput {env : Substrate} {sys : System}
    (h : Reachable env KeepsRoots sys) : sys.KeepsRootInput env KeepsRoots := by
  have ho : sys.ctx.OneRoot :=
    h.invariant (I := fun sys => sys.ctx.OneRoot) (oneRoot_empty rfl) fun sys next event hi hc hs =>
      oneRoot_step hi hc hs
  exact ⟨ho.rootInputs_le, fun turn now missing hk => (oneRoot_operation now missing ho hk).2⟩

/-- A cell that is written with a root expression, with an endpoint, and then with a value. -/
def writeInTurn : List Event :=
  [.turn (.assign [.key "a"] (.checksum ⟨10⟩)) 0 [],
    .turn (.assign [.key "b"] (.cell { recipe := {}, input := .rootExpression ⟨0, .mixed⟩ })) 0 [],
    .turn (.assign [.key "b"] (.cell { recipe := {}, input := .endpoint (cellEndpoint [.key "a"] []) })) 0 [],
    .turn (.assign [.key "b"] (.cell { recipe := {}, input := .unset })) 0 [],
    .turn (.cellOperation [.key "b"] [] (.checksum (some ⟨11⟩)) true none) 0 []]

theorem writeInTurn_runs : (System.run .fixed writeInTurn {}).isSome = true := by decide +kernel

theorem reachable_keepsRootInput_writeInTurn :
    ((System.run .fixed writeInTurn {}).get writeInTurn_runs).KeepsRootInput .fixed KeepsRoots :=
  reachable_keepsRootInput (Reachable.of_run .start (by decide +kernel) writeInTurn_runs)

/-- A value is written to a cell with a root expression. -/
def writeOverExpression : List Event :=
  [.turn (.assign [.key "b"] (.cell { recipe := {}, input := .rootExpression ⟨0, .mixed⟩ })) 0 [],
    .turn (.assign [.key "b"] (.checksum ⟨11⟩)) 0 []]

theorem writeOverExpression_runs : (System.run .fixed writeOverExpression {}).isSome = true := by
  decide +kernel

/-- The expression is still there, next to the value. -/
theorem not_reachable_keepsRootInput :
    ¬ ∀ sys, Reachable .fixed (fun _ _ => True) sys → sys.KeepsRootInput .fixed fun _ _ => True := by
  intro h
  have hk := h _ (Reachable.of_run .start (by decide +kernel) writeOverExpression_runs)
  have hone := hk.rootInputs [.key "b"]
  have htwo : ((System.run .fixed writeOverExpression {}).get writeOverExpression_runs).ctx.rootInputs
      [.key "b"] = 2 := by decide +kernel
  omega

end SeamlessWorkflow
