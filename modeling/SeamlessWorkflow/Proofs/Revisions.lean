import SeamlessWorkflow.Proofs.UpheldTurns

/-!
# What an operation revises

A configuration that a caller has read is compared by its revision when the caller writes it back. So
an operation that changes the configuration of a node has to give the node a new revision. `Kept` says
what an operation leaves of a Context: the nodes that stay, the nodes whose configuration is fenced by
the revision, and what derivation has established when the Context is settled.
-/

namespace SeamlessWorkflow

open Program

/-- The configuration of a node. -/
def Ctx.config? (ctx : Ctx) (path : NodePath) : Option NodeConfig := (ctx.node? path).map Node.config

/-- What is watched while an operation runs: what derivation establishes, the nodes that stay, and those
of them whose configuration does not change without a new revision. -/
structure Watch where
  derived : Ctx → Prop
  stays : NodePath → Prop
  fenced : NodePath → Prop
  fencedStays : ∀ p, fenced p → stays p

/-- What is watched has not been lost since the start. -/
structure Kept (w : Watch) (start ctx : Ctx) : Prop where
  derived : ctx.settled = true → w.derived ctx
  there : ∀ p, w.stays p → (start.config? p).isSome = true → (ctx.config? p).isSome = true
  revision : ∀ p, w.stays p → (start.config? p).isSome = true → start.revision p ≤ ctx.revision p
  config : ∀ p, w.fenced p → (start.config? p).isSome = true →
    ctx.revision p = start.revision p → ctx.config? p = start.config? p

/-- A change of bookkeeping: nothing that derivation has established is lost, and no configuration is
changed. -/
structure Aside (ctx ctx' : Ctx) : Prop where
  node : ∀ path, (ctx'.node? path).map Node.essence = (ctx.node? path).map Node.essence
  edges : ctx'.graph.edges = ctx.graph.edges
  facts : ctx'.facts = ctx.facts
  jobs : ctx'.jobs = ctx.jobs
  used : ctx'.usedFacts = ctx.usedFacts
  revision : ∀ path, ctx.revision path ≤ ctx'.revision path
  settled : ctx'.settled = true → ctx.settled = true

/-- A change after which the graph has to be derived again. -/
structure Edits (w : Watch) (ctx ctx' : Ctx) : Prop where
  unsettled : ctx'.settled = false
  there : ∀ p, w.stays p → (ctx.config? p).isSome = true → (ctx'.config? p).isSome = true
  revision : ∀ p, w.stays p → (ctx.config? p).isSome = true → ctx.revision p ≤ ctx'.revision p
  config : ∀ p, w.fenced p → (ctx.config? p).isSome = true →
    ctx'.revision p = ctx.revision p → ctx'.config? p = ctx.config? p

/-- What derivation establishes, it establishes, and no bookkeeping takes it away. -/
structure Watch.Lawful (env : Substrate) (w : Watch) : Prop where
  aside : ∀ {ctx ctx' : Ctx}, Aside ctx ctx' → w.derived ctx → w.derived ctx'
  derive : ∀ {ctx : Ctx} {sorted : List NodePath}, sortPaths ctx.graph.nodes.keys = some sorted →
    w.derived (ctx.beginDerivation.deriveGraph env sorted)

/-! ## Changes of bookkeeping -/

theorem Node.config_essence (node : Node) : node.essence.config = node.config := by
  unfold Node.essence Node.config
  cases node.body <;> rfl

/-- Configurations and revisions are durable. -/
theorem Ctx.config?_of_durable {ctx ctx' : Ctx} (h : ctx'.durable = ctx.durable) (p : NodePath) :
    ctx'.config? p = ctx.config? p := by
  have hdurable : ∀ c : Ctx, c.config? p = (c.durable.node p).map Node.config := by
    intro c
    unfold Ctx.config? Ctx.durable
    dsimp only
    rw [Option.map_map]
    exact Option.map_congr fun node _ => (Node.durable_config node).symm
  rw [hdurable, hdurable, h]

theorem Ctx.revision_of_durable {ctx ctx' : Ctx} (h : ctx'.durable = ctx.durable) (p : NodePath) :
    ctx'.revision p = ctx.revision p :=
  congrArg (fun d => ((Durable.revisions d).lookup p).getD 0) h

namespace Aside

theorem of_eq {ctx ctx' : Ctx} (hgraph : ctx'.graph = ctx.graph) (hfacts : ctx'.facts = ctx.facts)
    (hjobs : ctx'.jobs = ctx.jobs) (hused : ctx'.usedFacts = ctx.usedFacts)
    (hrevision : ∀ path, ctx.revision path ≤ ctx'.revision path)
    (hsettled : ctx'.settled = ctx.settled) : Aside ctx ctx' where
  node path := by unfold Ctx.node?; rw [hgraph]
  edges := by rw [hgraph]
  facts := hfacts
  jobs := hjobs
  used := hused
  revision := hrevision
  settled hs := hsettled ▸ hs

theorem refl (ctx : Ctx) : Aside ctx ctx := .of_eq rfl rfl rfl rfl (fun _ => le_rfl) rfl

theorem trans {a b c : Ctx} (h : Aside a b) (h' : Aside b c) : Aside a c where
  node path := (h'.node path).trans (h.node path)
  edges := h'.edges.trans h.edges
  facts := h'.facts.trans h.facts
  jobs := h'.jobs.trans h.jobs
  used := h'.used.trans h.used
  revision path := (h.revision path).trans (h'.revision path)
  settled hs := h.settled (h'.settled hs)

theorem foldl {α : Type} {f : Ctx → α → Ctx} (h : ∀ ctx a, Aside ctx (f ctx a)) (as : List α)
    (ctx : Ctx) : Aside ctx (as.foldl f ctx) := by
  induction as generalizing ctx with
  | nil => exact .refl ctx
  | cons a as ih => exact (h ctx a).trans (ih (f ctx a))

theorem config? {ctx ctx' : Ctx} (h : Aside ctx ctx') (path : NodePath) :
    ctx'.config? path = ctx.config? path := by
  have hconfig : ∀ c : Ctx, c.config? path = ((c.node? path).map Node.essence).map Node.config := by
    intro c
    unfold Ctx.config?
    rw [Option.map_map]
    exact Option.map_congr fun node _ => (Node.config_essence node).symm
  rw [hconfig, hconfig, h.node]

end Aside

theorem aside_increfAll (cs : List Checksum) (ctx : Ctx) : Aside ctx (ctx.increfAll cs) :=
  Aside.foldl (f := fun ctx c => ctx.incref c)
    (fun _ _ => .of_eq rfl rfl rfl rfl (fun _ => le_rfl) rfl) cs ctx

theorem aside_decrefAll (cs : List Checksum) (ctx : Ctx) : Aside ctx (ctx.decrefAll cs) :=
  Aside.foldl (f := fun ctx c => ctx.decref c)
    (fun _ _ => .of_eq rfl rfl rfl rfl (fun _ => le_rfl) rfl) cs ctx

theorem aside_syncModuleRefholds (ctx : Ctx) : Aside ctx ctx.syncModuleRefholds :=
  ((aside_increfAll _ ctx).trans (aside_decrefAll _ _)).trans
    (.of_eq rfl rfl rfl rfl (fun _ => le_rfl) rfl)

theorem aside_syncSupersededRefholds (ctx : Ctx) : Aside ctx ctx.syncSupersededRefholds := by
  unfold Ctx.syncSupersededRefholds
  dsimp only
  refine (Aside.foldl (fun ctx entry => ?_) _ ctx).trans (Aside.foldl (fun ctx item => ?_) _ _)
  · exact .of_eq rfl rfl rfl rfl (fun _ => le_rfl) rfl
  · split
    · exact .refl _
    · exact .of_eq rfl rfl rfl rfl (fun _ => le_rfl) rfl

theorem aside_cancelRuns (records : List RunRecord) (ctx : Ctx) : Aside ctx (ctx.cancelRuns records) := by
  refine Aside.foldl (fun ctx record => ?_) records ctx
  split
  · exact .of_eq rfl rfl rfl rfl (fun _ => le_rfl) rfl
  · exact .refl _

theorem aside_dropQueued (path : NodePath) (dropped : RunRecord → Bool) (ctx : Ctx) :
    Aside ctx (ctx.dropQueued path dropped) := by
  unfold Ctx.dropQueued
  split
  · exact .refl ctx
  · refine Aside.trans ?_ (aside_cancelRuns _ _)
    exact .of_eq rfl rfl rfl rfl (fun _ => le_rfl) rfl

theorem aside_pruneRuns (selected : NodePath → Bool) (ctx : Ctx) :
    Aside ctx (ctx.pruneRuns selected) := by
  refine Aside.trans ?_ (aside_cancelRuns _ _)
  exact .of_eq rfl rfl rfl rfl (fun _ => le_rfl) rfl

theorem aside_poison (ctx : Ctx) : Aside ctx ctx.poison :=
  .of_eq rfl rfl rfl rfl (fun _ => le_rfl) rfl

theorem aside_releaseCode (path : NodePath) (ctx : Ctx) : Aside ctx (ctx.releaseCode path) :=
  (aside_decrefAll _ ctx).trans (.of_eq rfl rfl rfl rfl (fun _ => le_rfl) rfl)

theorem Ctx.revision_bumpRevision (path q : NodePath) (ctx : Ctx) :
    (ctx.bumpRevision path).revision q =
      if q = path then ctx.revision path + 1 else ctx.revision q := by
  unfold Ctx.revision Ctx.bumpRevision
  dsimp only
  by_cases hq : q = path
  · rw [if_pos hq, hq, AList.lookup_insert]
    rfl
  · rw [if_neg hq, AList.lookup_insert_ne hq]

theorem aside_bumpRevision (path : NodePath) (ctx : Ctx) : Aside ctx (ctx.bumpRevision path) := by
  refine .of_eq rfl rfl rfl rfl (fun q => ?_) rfl
  rw [Ctx.revision_bumpRevision]
  split
  · rename_i hq
    rw [hq]
    omega
  · exact le_rfl

/-! ## Changes of the graph -/

namespace Edits

variable {w : Watch}

/-- A change that touches no configuration and no revision. -/
theorem of_config {ctx ctx' : Ctx} (hunsettled : ctx'.settled = false)
    (hconfig : ∀ p, w.stays p → ctx'.config? p = ctx.config? p)
    (hrevision : ∀ p, w.stays p → ctx'.revision p = ctx.revision p) : Edits w ctx ctx' where
  unsettled := hunsettled
  there p hp h := (hconfig p hp).symm ▸ h
  revision p hp _ := (hrevision p hp).symm.le
  config p hp _ _ := hconfig p (w.fencedStays p hp)

/-- A change of the graph in which the nodes that are watched keep their configuration. -/
theorem modifyGraph {ctx : Ctx} {f : ContextGraph → ContextGraph}
    (h : ∀ p, w.stays p → ((f ctx.graph).nodes.lookup p).map Node.config =
      (ctx.graph.nodes.lookup p).map Node.config) : Edits w ctx (ctx.modifyGraph f) :=
  .of_config rfl h fun _ _ => rfl

end Edits

theorem config?_updateNode (path : NodePath) (f : Node → Node) (ctx : Ctx) (q : NodePath) :
    (ctx.modifyGraph fun g => g.updateNode path f).config? q =
      if q = path then (ctx.node? path).map fun node => (f node).config else ctx.config? q := by
  show ((ctx.graph.updateNode path f).nodes.lookup q).map Node.config = _
  rw [ContextGraph.lookup_updateNode]
  by_cases hq : q = path
  · rw [if_pos hq, if_pos hq, Option.map_map]
    rfl
  · rw [if_neg hq, if_neg hq]
    rfl

/-- A change of one node, which does not touch its configuration unless the configuration is free to
change. -/
theorem edits_updateNode {w : Watch} (path : NodePath) {f : Node → Node} (ctx : Ctx)
    (hf : w.fenced path → ∀ node, (f node).config = node.config) :
    Edits w ctx (ctx.modifyGraph fun g => g.updateNode path f) where
  unsettled := rfl
  there p _ hp := by
    rw [config?_updateNode]
    split
    · rename_i he
      rw [he] at hp
      unfold Ctx.config? at hp
      rwa [Option.isSome_map] at hp ⊢
    · exact hp
  revision _ _ _ := le_rfl
  config p hp _ _ := by
    rw [config?_updateNode]
    split
    · rename_i he
      subst he
      exact Option.map_congr fun node _ => hf hp node
    · rfl

theorem config_mapCell {f : CellFields → CellFields} (hf : ∀ fields, (f fields).config = fields.config)
    (node : Node) : (node.mapCell f).config = node.config := by
  unfold Node.mapCell Node.config
  cases h : node.body with
  | cell fields => exact congrArg NodeConfig.cell (hf fields)
  | transformer fields => rw [h]

theorem config_mapTransformer {f : TransformerFields → TransformerFields}
    (hf : ∀ fields, (f fields).config = fields.config) (node : Node) :
    (node.mapTransformer f).config = node.config := by
  unfold Node.mapTransformer Node.config
  cases h : node.body with
  | cell fields => rw [h]
  | transformer fields => exact congrArg NodeConfig.transformer (hf fields)

/-! ## What is kept -/

namespace Kept

variable {w : Watch} {start a b : Ctx}

theorem refl {ctx : Ctx} (h : ctx.settled = true → w.derived ctx) : Kept w ctx ctx :=
  ⟨h, fun _ _ hp => hp, fun _ _ _ => le_rfl, fun _ _ _ _ => rfl⟩

theorem trans {c : Ctx} (h : Kept w a b) (h' : Kept w b c) : Kept w a c where
  derived := h'.derived
  there p hp hs := h'.there p hp (h.there p hp hs)
  revision p hp hs := (h.revision p hp hs).trans (h'.revision p hp (h.there p hp hs))
  config p hp hs he := by
    have hthere := h.there p (w.fencedStays p hp) hs
    have hab := h.revision p (w.fencedStays p hp) hs
    have hbc := h'.revision p (w.fencedStays p hp) hthere
    rw [h'.config p hp hthere (by omega), h.config p hp hs (by omega)]

theorem edit (h : Kept w start a) (he : Edits w a b) : Kept w start b := by
  refine h.trans ⟨fun hs => absurd (he.unsettled.symm.trans hs) Bool.false_ne_true, he.there,
    he.revision, he.config⟩

theorem aside {env : Substrate} (hw : w.Lawful env) (h : Kept w start a) (ha : Aside a b) :
    Kept w start b := by
  refine h.trans ⟨fun hs => hw.aside ha (h.derived (ha.settled hs)), fun p _ hp => ?_,
    fun p _ _ => ha.revision p, fun p _ _ _ => ha.config? p⟩
  rwa [ha.config?]

end Kept

/-! ## A configuration that is about to get a new revision -/

/-- The same watch, but for the configuration of one node. -/
def Watch.loosen (w : Watch) (path : NodePath) : Watch where
  derived := w.derived
  stays := w.stays
  fenced p := w.fenced p ∧ p ≠ path
  fencedStays p hp := w.fencedStays p hp.1

theorem Watch.Lawful.loosen {env : Substrate} {w : Watch} (h : w.Lawful env) (path : NodePath) :
    (w.loosen path).Lawful env := ⟨h.aside, h.derive⟩

theorem Kept.loosen {w : Watch} {start ctx : Ctx} (h : Kept w start ctx) (path : NodePath) :
    Kept (w.loosen path) start ctx :=
  ⟨h.derived, h.there, h.revision, fun p hp => h.config p hp.1⟩

/-- With a new revision the node may have any configuration. -/
theorem Kept.tighten {w : Watch} {start ctx : Ctx} {path : NodePath}
    (h : Kept (w.loosen path) start ctx)
    (hnew : w.stays path → (start.config? path).isSome = true →
      start.revision path < ctx.revision path) : Kept w start ctx := by
  refine ⟨h.derived, h.there, h.revision, fun p hp hs he => ?_⟩
  by_cases hpath : p = path
  · subst hpath
    have := hnew (w.fencedStays p hp) hs
    omega
  · exact h.config p ⟨hp, hpath⟩ hs he

/-- The node has got a new revision since the start. -/
structure Past (w : Watch) (path : NodePath) (start ctx : Ctx) : Prop where
  kept : Kept (w.loosen path) start ctx
  revised : w.stays path → (start.config? path).isSome = true →
    start.revision path < ctx.revision path

theorem Past.tighten {w : Watch} {path : NodePath} {start ctx : Ctx} (h : Past w path start ctx) :
    Kept w start ctx := h.kept.tighten h.revised

theorem Kept.bump {w : Watch} {env : Substrate} (hw : w.Lawful env) {path : NodePath} {start ctx : Ctx}
    (h : Kept (w.loosen path) start ctx) : Past w path start (ctx.bumpRevision path) := by
  refine ⟨h.aside (hw.loosen path) (aside_bumpRevision path ctx), fun hp hs => ?_⟩
  rw [Ctx.revision_bumpRevision, if_pos rfl]
  have := h.revision path hp hs
  omega

/-- What happens to a node after it has got a new revision. -/
theorem keeps_past {α : Type} {w : Watch} {path : NodePath} {program : M α}
    (h : ∀ start, Keeps (Kept (w.loosen path) start) program) (start : Ctx) :
    Keeps (Past w path start) program := by
  intro ctx hc
  have hafter : ∀ ctx', Kept (w.loosen path) ctx ctx' → Past w path start ctx' := fun ctx' hk =>
    ⟨hc.kept.trans hk, fun hp hs =>
      (hc.revised hp hs).trans_le (hk.revision path hp (hc.kept.there path hp hs))⟩
  exact ((h ctx).conseq (fun _ hs => hs) (fun _ _ hk => hafter _ hk) fun _ hk => hafter _ hk) ctx
    (.refl hc.kept.derived)

end SeamlessWorkflow
