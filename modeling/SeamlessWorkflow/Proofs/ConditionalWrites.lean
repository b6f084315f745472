import SeamlessWorkflow.Context.Ingress
import SeamlessWorkflow.Library.Versions
import SeamlessWorkflow.Proofs.RevisedTurns
import SeamlessWorkflow.Proofs.RootRuns

/-!
# Calls of the ingress take effect at once

A setter of a configuration and an edit of a part of a cell hold what they have read while other
messages arrive. When a write of theirs is accepted, it is a write to what stands there at that moment.
-/

namespace SeamlessWorkflow

open Program

/-! ## Configurations and their revisions -/

/-- The configuration of a node, with its revision as the version. -/
def configured (path : NodePath) : Versioned Ctx (Option NodeConfig) where
  version ctx := ctx.revision path
  content ctx := ctx.config? path

/-- Some nodes are watched with their configuration. -/
def Watch.on (held : NodePath → Prop) : Watch where
  derived _ := True
  stays := held
  fenced := held
  fencedStays _ h := h

theorem Watch.lawful_on (env : Substrate) (held : NodePath → Prop) : (Watch.on held).Lawful env :=
  ⟨fun _ _ => trivial, fun _ => trivial⟩

theorem Kept.refl_on (held : NodePath → Prop) (ctx : Ctx) : Kept (Watch.on held) ctx ctx :=
  .refl fun _ => trivial

/-- What is watched gets a new revision with every new configuration. -/
theorem Kept.revises {held : NodePath → Prop} {start ctx : Ctx} (h : Kept (Watch.on held) start ctx)
    {path : NodePath} (hp : held path) (hthere : (start.config? path).isSome = true) :
    (configured path).Revises start ctx :=
  ⟨h.revision path hp hthere, fun he => h.config path hp hthere he⟩

/-- A node is there, and it has a configuration that was read at a revision, or a later revision. -/
structure Snapshot (path : NodePath) (revision : Nat) (config : NodeConfig) (ctx : Ctx) : Prop where
  there : (ctx.config? path).isSome = true
  holds : (configured path).Holds revision (some config) ctx

theorem Snapshot.kept {held : NodePath → Prop} {path : NodePath} {revision : Nat}
    {config : NodeConfig} {ctx ctx' : Ctx} (h : Snapshot path revision config ctx)
    (hk : Kept (Watch.on held) ctx ctx') (hp : held path) : Snapshot path revision config ctx' :=
  ⟨hk.there path hp h.there, h.holds.revise (hk.revises hp h.there)⟩

/-- What has just been read. -/
theorem Snapshot.read {path : NodePath} {config : NodeConfig} {ctx : Ctx}
    (h : ctx.config? path = some config) : Snapshot path (ctx.revision path) config ctx :=
  ⟨by rw [h]; rfl, le_rfl, fun _ => h⟩

theorem Ctx.celltype_of_config {ctx : Ctx} {path : NodePath} {node : Node} {config : CellConfig}
    (hnode : ctx.node? path = some node) (hconfig : ctx.config? path = some (.cell config)) :
    node.celltype = config.celltype := by
  unfold Ctx.config? at hconfig
  rw [hnode] at hconfig
  have hnodeConfig := Option.some.inj hconfig
  unfold Node.config at hnodeConfig
  unfold Node.celltype
  cases hbody : node.body with
  | cell fields =>
    rw [hbody] at hnodeConfig
    exact congrArg CellConfig.celltype (NodeConfig.cell.inj hnodeConfig)
  | transformer fields =>
    rw [hbody] at hnodeConfig
    cases hnodeConfig

theorem Ctx.config?_of_cell? {ctx : Ctx} {path : NodePath} {fields : CellFields}
    (h : ctx.cell? path = some fields) : ctx.config? path = some (.cell fields.config) := by
  obtain ⟨node, hnode, hfields⟩ := Option.bind_eq_some_iff.mp h
  unfold Ctx.config?
  rw [hnode, Option.map_some]
  unfold Node.cellFields at hfields
  unfold Node.config
  cases hbody : node.body with
  | cell fields' =>
    rw [hbody] at hfields
    obtain rfl := Option.some.inj hfields
    rfl
  | transformer fields' =>
    rw [hbody] at hfields
    cases hfields

/-! ## Operations that leave the configurations alone -/

/-- The configurations are those of another Context. -/
def SameConfigs (start ctx : Ctx) : Prop := ∀ q, ctx.config? q = start.config? q

section SameConfigs

variable {env : Substrate} {start : Ctx}

theorem SameConfigs.of_graph {a b : Ctx} (h : SameConfigs start a) (hg : b.graph = a.graph) :
    SameConfigs start b := by
  intro q
  rw [← h q]
  unfold Ctx.config? Ctx.node?
  rw [hg]

theorem sameConfigs_decrefAll {a : Ctx} (h : SameConfigs start a) (cs : List Checksum) :
    SameConfigs start (a.decrefAll cs) := h.of_graph (graph_decrefAll cs a)

theorem sameConfigs_updateNode {a : Ctx} (h : SameConfigs start a) (path : NodePath) {f : Node → Node}
    (hf : ∀ node, (f node).config = node.config) :
    SameConfigs start (a.modifyGraph fun g => g.updateNode path f) := by
  intro q
  rw [← h q, config?_updateNode]
  split
  · rename_i he
    rw [he]
    exact Option.map_congr fun node _ => hf node
  · rfl

theorem sameConfigs_deriveAll : Keeps (SameConfigs start) (deriveAll env) :=
  deriveAll_keeps (fun _ _ hd h q => (Ctx.config?_of_durable hd q).trans (h q)) env

theorem sameConfigs_detach {a : Ctx} (h : SameConfigs start a) (path : NodePath) (driver : String) :
    SameConfigs start (a.detach path driver) := by
  unfold Ctx.detach
  split
  · exact h
  · refine sameConfigs_updateNode (a := { a with mountSessions := a.mountSessions.erase (path, driver) })
      (h.of_graph rfl) path fun node => ?_
    split
    · rfl
    · split <;> rfl

theorem sameConfigs_afterTurn : Keeps (SameConfigs start) (afterTurn env) := by
  refine Keeps.bind Keeps.get fun ctx => keeps_onlyIf ?_
  refine Keeps.bind Keeps.get fun ctx => Keeps.forM fun key _ => ?_
  split
  · exact Keeps.pure
  · refine Keeps.bind Keeps.get fun ctx => keeps_onlyIf ?_
    exact Keeps.bind (Keeps.modify fun _ hc => sameConfigs_detach hc _ _) fun _ => sameConfigs_deriveAll

theorem sameConfigs_dropPinProducer (path : NodePath) (pin : String) :
    Keeps (SameConfigs start) (dropPinProducer path pin) := by
  refine Keeps.bind (keeps_nodeAt path) fun _ => Keeps.bind (Keeps.modify fun _ hc => ?_) fun _ =>
    Keeps.modify fun _ hc => sameConfigs_decrefAll hc _
  exact sameConfigs_updateNode hc path (config_mapTransformer fun _ => rfl)

theorem sameConfigs_setCellRoot (path : NodePath) (checksum : Checksum) (celltype : Celltype) :
    Keeps (SameConfigs start) (setCellRoot env path (some checksum) celltype false) := by
  refine Keeps.bind Keeps.get fun ctx => Keeps.bind (keeps_refuseIf _ _ _) fun _ => ?_
  refine Keeps.bind (Keeps.modify fun _ hc => hc.of_graph rfl) fun _ => Keeps.bind ?_ fun _ => ?_
  · refine Keeps.bind (keeps_cellAt path) fun _ => ?_
    refine Keeps.bind (Keeps.bind (Keeps.modify fun _ hc => hc.of_graph rfl) fun _ => Keeps.pure)
      fun producer => Keeps.bind (keeps_nodeAt path) fun _ => ?_
    refine Keeps.bind (Keeps.modify fun _ hc => ?_) fun _ =>
      Keeps.modify fun _ hc => sameConfigs_decrefAll hc _
    exact sameConfigs_updateNode hc path (config_mapCell fun _ => rfl)
  · refine Keeps.bind (Keeps.modify fun _ hc => hc.of_graph rfl) fun _ => ?_
    exact keeps_onlyIf (Keeps.modify fun _ hc => hc)

/-- The commit of an edit changes no configuration. -/
theorem sameConfigs_commitUpdate (path : NodePath) (localPath : Path) (checksum : Checksum)
    (base : Option Checksum) (revision : Nat) (detach : Bool) :
    Keeps (SameConfigs start) (commitUpdate env path localPath checksum base revision detach) := by
  refine Keeps.bind (keeps_validateWrite _ _ _) fun _ => Keeps.bind (keeps_nodeAt path) fun _ => ?_
  refine Keeps.bind Keeps.get fun ctx => Keeps.ite Keeps.pure ?_
  refine Keeps.bind (keeps_cellAt path) fun _ => ?_
  refine Keeps.bind (sameConfigs_setCellRoot path _ _) fun _ => ?_
  refine Keeps.bind (keeps_onlyIf (Keeps.modify fun _ hc => hc)) fun _ => ?_
  exact Keeps.bind sameConfigs_deriveAll fun _ => Keeps.pure

/-- One node has got a configuration. -/
def Configures (path : NodePath) (config : NodeConfig) (start ctx : Ctx) : Prop :=
  ∀ q, ctx.config? q = if q = path then some config else start.config? q

theorem Configures.of_same {path : NodePath} {config : NodeConfig} {a b : Ctx}
    (h : Configures path config start a) (hs : SameConfigs a b) : Configures path config start b :=
  fun q => (hs q).trans (h q)

theorem configures_deriveAll {path : NodePath} {config : NodeConfig} :
    Keeps (Configures path config start) (deriveAll env) :=
  deriveAll_keeps (fun _ _ hd h => h.of_same fun q => Ctx.config?_of_durable hd q) env

theorem configures_afterTurn {path : NodePath} {config : NodeConfig} :
    Keeps (Configures path config start) (afterTurn env) := fun ctx h =>
  ((@sameConfigs_afterTurn env ctx).conseq (fun _ hs => hs) (fun _ _ hs => h.of_same hs)
    fun _ hs => h.of_same hs) ctx fun _ => rfl

/-- A node of one kind is given a configuration of its kind. -/
theorem configures_modifyNode {path : NodePath} {f : Node → Node} {old new : NodeConfig}
    (hold : start.config? path = some old) (hf : ∀ node : Node, node.config = old → (f node).config = new)
    {ctx : Ctx} (h : SameConfigs start ctx) :
    Configures path new start (ctx.modifyGraph fun g => g.updateNode path f) := by
  intro q
  rw [config?_updateNode]
  split
  · have hctx := (h path).trans hold
    obtain ⟨node, hnode, hconfig⟩ := Option.map_eq_some_iff.mp hctx
    rw [hnode]
    exact congrArg some (hf node hconfig)
  · exact h q

theorem Node.config_mapCell_of {node : Node} {old new : CellConfig} (h : node.config = .cell old) :
    (node.mapCell fun fields => { fields with config := new }).config = .cell new := by
  unfold Node.config at h ⊢
  unfold Node.mapCell
  cases hbody : node.body with
  | cell fields => rfl
  | transformer fields => rw [hbody] at h; cases h

theorem Node.config_mapTransformer_of {node : Node} {old new : TransformerConfig}
    (h : node.config = .transformer old) :
    (node.mapTransformer fun fields => { fields with config := new }).config = .transformer new := by
  unfold Node.config at h ⊢
  unfold Node.mapTransformer
  cases hbody : node.body with
  | cell fields => rw [hbody] at h; cases h
  | transformer fields => rfl

theorem publishBody_configures (path : NodePath) (body : NodeBody) (config : NodeConfig)
    (hbody : start.config? path = some (Node.config { ident := 0, body := body })) :
    Triple (SameConfigs start) (publishBody path body config)
      (fun _ => Configures path config start) (fun _ => True) := by
  unfold publishBody
  split
  · rename_i fields cfg
    refine Triple.get_bind fun ctx => Triple.conseq (P := SameConfigs start)
      (Q := fun _ => Configures path (.cell cfg) start) (E := fun _ => True) ?_ (fun _ h => h.2)
        (fun _ _ h => h) fun _ h => h
    refine Triple.inspect (inspects_refuseIf _ _ _) (fun _ _ => trivial) fun _ => ?_
    refine Triple.inspect (inspects_refuseIf _ _ _) (fun _ _ => trivial) fun _ => ?_
    refine Triple.modify fun ctx' hc => configures_modifyNode hbody (fun node hnode => ?_) hc.1.1
    exact Node.config_mapCell_of hnode
  · rename_i fields cfg
    refine Triple.get_bind fun ctx => Triple.conseq (P := SameConfigs start)
      (Q := fun _ => Configures path (.transformer cfg) start) (E := fun _ => True) ?_ (fun _ h => h.2)
        (fun _ _ h => h) fun _ h => h
    refine Triple.inspect (inspects_refuseIf _ _ _) (fun _ _ => trivial) fun _ => ?_
    refine Triple.bind (R := fun _ => SameConfigs start) ?_ fun _ => ?_
    · refine Triple.conseq (P := SameConfigs start) (Q := fun _ => SameConfigs start)
        (E := SameConfigs start) (keeps_onlyIf ?_) (fun _ h => h.1) (fun _ _ h => h) fun _ _ => trivial
      refine Keeps.bind (Keeps.forM fun pin _ => ?_) fun _ => Keeps.modify fun _ hc => ?_
      · exact Keeps.bind (sameConfigs_dropPinProducer path pin) fun _ => Keeps.modify fun _ hc => hc
      · exact sameConfigs_updateNode hc path (config_mapTransformer fun _ => rfl)
    · refine Triple.modify fun ctx' hc => configures_modifyNode hbody (fun node hnode => ?_) hc
      exact Node.config_mapTransformer_of hnode
  · exact Triple.bind (R := fun _ _ => True) (Triple.modify fun _ _ => trivial) fun _ =>
      Triple.throw fun _ _ => trivial
  · exact Triple.throw fun _ _ => trivial

/-- A configuration is published if its revision is the present one, and only then. -/
theorem publishConfig_publishes (path : NodePath) (revision : Nat) (config : NodeConfig) :
    Triple (· = start) (publishConfig env path revision config)
      (fun accepted ctx => if accepted then
          start.revision path = revision ∧ Configures path config start ctx
        else SameConfigs start ctx) (fun _ => True) := by
  refine Triple.get_bind fun ctx => Triple.ite (fun _ => Triple.pure fun ctx' hc => ?_) fun hsame => ?_
  · obtain ⟨rfl, rfl⟩ := hc
    exact fun _ => rfl
  · rw [not_not] at hsame
    refine Triple.assume (fun ctx' hc => (hc.1.symm.trans hc.2 : ctx = start)) fun he => ?_
    rw [he] at hsame
    refine Triple.inspect (inspects_nodeAt path) (fun _ _ => trivial) fun node => ?_
    refine Triple.assume (fun ctx' hc => ?_) fun hbody => Triple.bind
      (R := fun _ => Configures path config start) ((publishBody_configures path node.body config
        hbody).conseq (fun ctx' hc => ?_) (fun _ _ h => h) fun _ h => h) fun _ => ?_
    · obtain ⟨⟨rfl, rfl⟩, hnode⟩ := hc
      exact congrArg (Option.map Node.config) hnode
    · obtain ⟨⟨rfl, rfl⟩, -⟩ := hc
      exact fun _ => rfl
    · refine Triple.bind (R := fun _ => Configures path config start) (Triple.modify fun _ hc => hc)
        fun _ => ?_
      refine Triple.bind (R := fun _ => Configures path config start) (configures_deriveAll.conseq
        (fun _ h => h) (fun _ _ h => h) fun _ _ => trivial) fun _ => Triple.pure fun ctx' hc => ?_
      rw [if_pos rfl]
      exact ⟨hsame, hc⟩

/-- The stored value of one cell is a checksum, labelled with the celltype of the cell. -/
def Stores (env : Substrate) (path : NodePath) (fields : CellFields) (checksum : Checksum)
    (start ctx : Ctx) : Prop :=
  ∀ q, ctx.cell? q = if q = path then
      some (fields.storing (writtenProducer env (some checksum) fields.config.celltype))
    else start.cell? q

theorem Stores.of_same {path : NodePath} {fields : CellFields} {checksum : Checksum} {a b : Ctx}
    (h : Stores env path fields checksum start a) (hs : SameRoots a b) :
    Stores env path fields checksum start b := fun q => (hs.cells q).trans (h q)

theorem stores_afterTurn {path : NodePath} {fields : CellFields} {checksum : Checksum} :
    Keeps (Stores env path fields checksum start) (afterTurn env) := fun ctx h =>
  ((@keepsInputs_afterTurn env ctx).conseq (fun _ hs => hs) (fun _ _ hs => h.of_same hs)
    fun _ hs => h.of_same hs) ctx (.refl ctx)

/-- What an accepted commit of an edit has found. -/
structure Commits (start : Ctx) (path : NodePath) (localPath : Path) (detach : Bool)
    (base : Option Checksum) (revision : Nat) (fields : CellFields) : Prop where
  cell : start.cell? path = some fields
  shows : (start.node? path).map Node.currentChecksum = some base
  revision : start.revision path = revision
  /-- No edge controls the place of the edit. -/
  free : ∀ edge ∈ start.graph.edges, ∀ l, start.graph.resolveExisting edge.target = some (path, l) →
    controls detach localPath l = false

/-- A commit that is accepted stores its checksum in the cell as it finds it, and one that is refused
changes no cell. -/
theorem commitUpdate_commits (path : NodePath) (localPath : Path) (checksum : Checksum)
    (base : Option Checksum) (revision : Nat) (detach : Bool) :
    Triple (· = start) (commitUpdate env path localPath checksum base revision detach)
      (fun accepted ctx => if accepted then ∃ fields,
          Commits start path localPath detach base revision fields ∧
          Stores env path fields checksum start ctx
        else SameRoots start ctx) (fun _ => True) := by
  refine Triple.inspect (inspects_validateWrite path localPath detach) (fun _ _ => trivial) fun _ => ?_
  refine Triple.inspect (inspects_nodeAt path) (fun _ _ => trivial) fun node => ?_
  refine Triple.get_bind fun ctx => ?_
  refine Triple.assume (fun _ h => h.1 ▸ h.2) fun hctx => ?_
  obtain ⟨⟨rfl, hvalid⟩, hnode⟩ := hctx
  refine Triple.ite (fun _ => Triple.pure fun ctx' h => ?_) fun hfresh => ?_
  · rw [h.1]
    exact .refl ctx
  rw [not_or, not_not, not_not] at hfresh
  refine Triple.inspect (inspects_cellAt path) (fun _ _ => trivial) fun fields => ?_
  refine Triple.assume (c := ctx.cell? path = some fields) (fun ctx' h => ?_) fun hcell => ?_
  · obtain ⟨⟨rfl, -⟩, node', hnode', hbody⟩ := h
    unfold Ctx.cell? Node.cellFields
    rw [hnode']
    simp [hbody]
  have hcommits : Commits ctx path localPath detach base revision fields := by
    refine ⟨hcell, ?_, hfresh.2, hvalid⟩
    rw [hnode, Option.map_some, hfresh.1]
  have hset : Triple (· = ctx) (setCellRoot env path (some checksum) fields.config.celltype false)
      (fun _ => Stores env path fields checksum ctx) (fun _ => True) := by
    refine (setCellRoot_result path (some checksum) fields.config.celltype false).conseq (fun _ h => h)
      (fun _ ctx' h q => ?_) fun _ _ => trivial
    rw [h.cells, hcell]
    rfl
  refine Triple.bind (hset.conseq (fun _ h => h.1.1) (fun _ _ h => h) fun _ h => h) fun _ => ?_
  refine Triple.bind (R := fun _ => Stores env path fields checksum ctx) ?_ fun _ => ?_
  · exact Triple.ite (fun _ => Triple.modify fun _ h => h) fun _ => Triple.pure fun _ h => h
  · have hderive : Keeps (Stores env path fields checksum ctx) (deriveAll env) :=
      deriveAll_keeps (fun _ _ hd h => h.of_same (.of_durable hd)) env
    refine Triple.bind (hderive.conseq (fun _ h => h) (fun _ _ h => h) fun _ _ => trivial) fun _ => ?_
    exact Triple.pure fun _ h => ⟨fields, hcommits, h⟩

end SameConfigs

/-! ## Turns with a reply -/

/-- A turn replies with what its operation returns, and ends after its attachments have been looked
after. -/
theorem Ctx.runTurn_replies {α : Type} {env : Substrate} {program : M α} {now : Nat}
    {missing : List Checksum} {ctx : Ctx} {Q : α → Ctx → Prop} {E : Ctx → Prop}
    (hprogram : Triple (· = ctx.arrive now missing) program Q E)
    (hafter : ∀ a, Keeps (Q a) (afterTurn env)) {a : α}
    (h : (ctx.runTurn env program now missing).1 = some a) :
    Q a (ctx.runTurn env program now missing).2 := by
  have hrun := hprogram _ rfl
  unfold Ctx.runTurn at h ⊢
  split at h
  · cases h
  · rename_i hopen
    rw [if_neg hopen]
    cases hr : program (ctx.arrive now missing) with
    | ok b ctx' =>
      rw [hr] at h hrun
      have hfinal := (hafter b).final hrun
      dsimp only at h ⊢
      cases ha : afterTurn env ctx' with
      | ok u ctx'' =>
        rw [ha] at h hfinal
        obtain rfl := Option.some.inj h
        exact hfinal
      | error e ctx'' => rw [ha] at h; cases h
    | error e ctx' => rw [hr] at h; cases h

/-- A poisoned Context refuses every message. -/
theorem Ctx.runTurn_poisoned {α : Type} {env : Substrate} {program : M α} {now : Nat}
    {missing : List Checksum} {ctx : Ctx} (h : ctx.poisoned = true) :
    ctx.runTurn env program now missing = (none, ctx) := by
  unfold Ctx.runTurn
  rw [if_pos h]

section Turns

variable {env : Substrate}

theorem kept_afterTurn {held : NodePath → Prop} {start : Ctx} :
    Keeps (Kept (Watch.on held) start) (afterTurn env) := (Watch.lawful_on env held).afterTurn start

theorem snapshot_afterTurn {path : NodePath} {revision : Nat} {config : NodeConfig} :
    Keeps (Snapshot path revision config) (afterTurn env) := fun ctx h =>
  ((@kept_afterTurn env (· = path) ctx).conseq (fun _ hk => hk)
    (fun _ _ hk => h.kept hk rfl) fun _ hk => h.kept hk rfl) ctx (.refl_on _ ctx)

theorem keeps_configSnapshot {I : Ctx → Prop} (path : NodePath) : Keeps I (configSnapshot path) :=
  Keeps.bind (keeps_nodeAt path) fun _ => Keeps.bind Keeps.get fun _ => Keeps.pure

theorem configSnapshot_reads {start : Ctx} (path : NodePath) :
    Triple (· = start) (configSnapshot path)
      (fun reply => Snapshot path reply.2 reply.1) (fun _ => True) := by
  refine Triple.inspect (inspects_nodeAt path) (fun _ _ => trivial) fun node => ?_
  refine Triple.get_bind fun ctx => Triple.pure fun ctx' hc => ?_
  obtain ⟨rfl, -, hnode⟩ := hc
  exact Snapshot.read (congrArg (Option.map Node.config) hnode)

/-- What an edit reads: the celltype is that of the cell at its revision. -/
theorem updateBase_reads {start : Ctx} (path : NodePath) (localPath : Path) (detach : Bool) :
    Triple (· = start) (updateBase path localPath detach)
      (fun base ctx => ∃ config : CellConfig, config.celltype = base.celltype ∧
        Snapshot path base.revision (.cell config) ctx) (fun _ => True) := by
  refine Triple.inspect (inspects_validateWrite path localPath detach) (fun _ _ => trivial) fun _ => ?_
  refine Triple.inspect (inspects_nodeAt path) (fun _ _ => trivial) fun node => ?_
  refine Triple.inspect (inspects_cellAt path) (fun _ _ => trivial) fun fields => ?_
  refine Triple.get_bind fun ctx => Triple.pure fun ctx' hc => ?_
  obtain ⟨rfl, -, node', hnode, hbody⟩ := hc
  refine ⟨fields.config, rfl, Snapshot.read ?_⟩
  unfold Ctx.config?
  rw [hnode, Option.map_some]
  unfold Node.config
  rw [hbody]

theorem base_afterTurn {path : NodePath} {base : UpdateBase} :
    Keeps (fun ctx => ∃ config : CellConfig, config.celltype = base.celltype ∧
      Snapshot path base.revision (.cell config) ctx) (afterTurn env) := by
  rintro ctx ⟨config, hcelltype, h⟩
  exact (snapshot_afterTurn.conseq (fun _ hs => hs) (fun _ _ hs => ⟨config, hcelltype, hs⟩)
    fun _ hs => ⟨config, hcelltype, hs⟩) ctx h

end Turns

end SeamlessWorkflow
