import SeamlessWorkflow.Proofs.RevisedNodes

/-!
# Builders, assignments and revisions

The operations that create nodes or replace them from a builder, and the copy of a namespace.
-/

namespace SeamlessWorkflow

open Program

/-- The same watch without one node. -/
def Watch.without (w : Watch) (path : NodePath) : Watch where
  derived := w.derived
  stays p := w.stays p ∧ p ≠ path
  fenced p := w.fenced p ∧ p ≠ path
  fencedStays p hp := ⟨w.fencedStays p hp.1, hp.2⟩

theorem Watch.Lawful.without {env : Substrate} {w : Watch} (h : w.Lawful env) (path : NodePath) :
    (w.without path).Lawful env := ⟨h.aside, h.derive⟩

/-- A node that was not there at the start need not be watched. -/
theorem Kept.iff_without {w : Watch} {start ctx : Ctx} {path : NodePath}
    (hgone : w.stays path → (start.config? path).isSome = false) :
    Kept (w.without path) start ctx ↔ Kept w start ctx := by
  have hne : ∀ p, w.stays p → (start.config? p).isSome = true → p ≠ path := by
    rintro p hp hs rfl
    rw [hgone hp] at hs
    cases hs
  constructor
  · intro h
    exact ⟨h.derived, fun p hp hs => h.there p ⟨hp, hne p hp hs⟩ hs,
      fun p hp hs => h.revision p ⟨hp, hne p hp hs⟩ hs,
      fun p hp hs => h.config p ⟨hp, hne p (w.fencedStays p hp) hs⟩ hs⟩
  · intro h
    exact ⟨h.derived, fun p hp => h.there p hp.1, fun p hp => h.revision p hp.1,
      fun p hp => h.config p hp.1⟩

/-- Does a builder with this input give the cell a new revision? -/
def InputRef.revises : InputRef → Bool
  | .unset | .endpoint _ => false
  | .checksum _ | .expression _ _ _ | .rootExpression _ => true

/-- Nothing that is watched is below the free name of a cell. -/
def Watch.NamesApart (w : Watch) : Prop :=
  ∀ (i : Nat) p, below [.key ("cell" ++ toString i)] p = true → p ≠ [.key ("cell" ++ toString i)] →
    ¬ w.stays p

/-- A prepared builder that can replace a cell: it gives the cell a new revision, unless the
configuration of the cell is not fenced. -/
def PreparedCell.Respects (w : Watch) (path : NodePath) (cell : PreparedCell) : Prop :=
  (cell.upstream ≠ [] → w.NamesApart) ∧
    (cell.upstream ≠ [] ∨ cell.input.revises = false → ¬ w.fenced path)

/-- Nothing that is watched is below a new node that may have to be deleted again, or in the place of a
copy. -/
def AssignValue.CreatesApart (w : Watch) (path : NodePath) : AssignValue → Prop
  | .context | .endpoint _ | .config _ | .checksum _ => True
  | .subcontext _ => ∀ p, below path p = true → ¬ w.stays p
  | .cell prepared => (∀ p, below path p = true → p ≠ path → ¬ w.stays p) ∧
      (prepared.upstream ≠ [] → w.NamesApart)
  | .transformer _ => ∀ p, below path p = true → p ≠ path → ¬ w.stays p

namespace Watch.Lawful

variable {env : Substrate} {w : Watch} (h : w.Lawful env) (start : Ctx)

/-! ## Cells -/

section Cells

include h

theorem createCell (path : NodePath) (config : CellConfig) :
    Keeps (Kept w start) (createCell path config) := by
  refine Triple.get_bind fun ctx => ?_
  refine Triple.inspect (inspects_refuseIf _ _ _) (fun _ hc => hc.2) fun _ => ?_
  refine Triple.modify fun ctx' hc => ?_
  obtain ⟨⟨rfl, hkept⟩, hnew⟩ := hc
  exact hkept.putNode h _ (hkept.absent hnew)

omit h in
/-- The configuration of a cell, which may be fenced if a new revision follows. -/
theorem mapCell_loosen (path : NodePath) (f : CellFields → CellFields) {E : Ctx → Prop} :
    Triple (Kept w start) (SeamlessWorkflow.modifyNode path (Node.mapCell f))
      (fun _ => Kept (w.loosen path) start) E :=
  Triple.modify fun ctx hc =>
    (hc.loosen path).edit (edits_updateNode path ctx fun hfenced => absurd rfl hfenced.2)

theorem replaceRootProducer_loosen (path : NodePath) (producer : Option ConstantProducer) :
    Triple (Kept (w.loosen path) start) (SeamlessWorkflow.replaceRootProducer path producer)
      (fun _ => Kept (w.loosen path) start) (Kept w start) := by
  refine Triple.bind (nodeAt_loosen start path) fun node => ?_
  refine Triple.bind (R := fun _ => Kept (w.loosen path) start) (Triple.modify fun ctx hc => ?_) fun _ =>
    Triple.modify fun ctx hc => hc.aside (h.loosen path) (aside_decrefAll _ ctx)
  exact hc.edit (edits_updateNode path ctx fun _ => config_mapCell fun _ => rfl)

/-- A builder gives a cell its configuration along with a new revision, unless the cell has no stored
value then. -/
theorem installCell (path : NodePath) (config : CellConfig) (producer : Option ConstantProducer)
    (expression : Option RootExpression) (bump : Bool) (hfree : bump = false → ¬ w.fenced path) :
    Keeps (Kept w start) (installCell path config producer expression bump) := by
  refine Triple.bind (mapCell_loosen start path _) fun _ => ?_
  refine Triple.bind (h.replaceRootProducer_loosen start path producer) fun _ => ?_
  refine Triple.bind (R := fun _ => Kept w start) ?_ fun _ => removeEdgesTargeting start path []
  refine Triple.ite (fun _ => ?_) fun hbump => ?_
  · exact (h.bump_loosen start path).conseq (fun _ hc => hc) (fun _ _ hc => hc.tighten) fun _ hc => hc
  · refine Triple.pure fun ctx hc => ⟨hc.derived, hc.there, hc.revision, fun p hp hs he => ?_⟩
    refine hc.config p ⟨hp, ?_⟩ hs he
    rintro rfl
    exact hfree (by simpa using hbump) hp

theorem detachForBuilder (path : NodePath) (celltype : Celltype) :
    Keeps (Kept w start) (detachForBuilder path celltype) := by
  refine Keeps.bind (keeps_nodeAt path) fun node => Keeps.bind Keeps.get fun ctx => ?_
  refine keeps_onlyIf (Keeps.bind (keeps_refuseIf _ _ _) fun _ => ?_)
  refine Keeps.bind (Keeps.modify fun ctx hc => hc.detachAll h path) fun _ => ?_
  exact modifyNode start path fun _ _ => rfl

theorem beginReplacement (path : NodePath) (recipe : CellRecipe) :
    Keeps (Kept w start) (beginReplacement path recipe) :=
  Keeps.bind (h.detachForBuilder start path recipe.celltype) fun _ =>
    mapCell start path fun _ _ => rfl

theorem createExpressionRoot (root : Checksum) (celltype : Celltype) :
    Keeps (Kept w start) (createExpressionRoot env root celltype) := by
  refine Keeps.bind Keeps.get fun ctx => Keeps.bind (h.createCell start _ _) fun _ => ?_
  refine Keeps.bind (h.retainProducer start _ _) fun _ => ?_
  exact Keeps.bind (h.replaceRootProducer start _ _) fun _ => Keeps.pure

theorem bindInput (path : NodePath) (recipe : CellRecipe) (input : InputRef)
    (hfree : input.revises = false → ¬ w.fenced path) :
    Keeps (Kept w start) (bindInput env path recipe input) := by
  cases input with
  | unset => exact h.installCell start _ _ _ _ _ fun _ => hfree rfl
  | checksum c =>
    exact Keeps.bind (h.retainProducer start _ _) fun _ => h.installCell start _ _ _ _ _ nofun
  | endpoint ep =>
    refine Keeps.bind (h.addEndpointEdge start _ _ _) fun _ => mapCell start path fun hfenced => ?_
    exact absurd hfenced (hfree rfl)
  | rootExpression expression => exact h.installCell start _ _ _ _ _ nofun
  | expression first links root =>
    refine Keeps.bind (h.createExpressionRoot start _ _) fun source => ?_
    exact Keeps.bind (h.installCell start _ _ _ _ _ nofun) fun _ => h.addEdge start _ _ _ _

end Cells

/-- The builders that a cell reads from become cells with free names. A failure deletes what is below
such a name. -/
theorem replaceCellFromBuilder (input : InputRef) (upstream : List CellRecipe)
    (hnames : upstream ≠ [] → w.NamesApart) :
    ∀ (w' : Watch) (_ : w'.Lawful env) (_ : ∀ p, w'.stays p → w.stays p) (path : NodePath)
      (recipe : CellRecipe), (upstream ≠ [] ∨ input.revises = false → ¬ w'.fenced path) →
      Keeps (Kept w' start) (replaceCellFromBuilder env upstream path recipe input) := by
  induction upstream with
  | nil =>
    intro w' h' _ path recipe hfree
    exact Keeps.bind (h'.beginReplacement start path recipe) fun _ =>
      h'.bindInput start path recipe input fun hi => hfree (Or.inr hi)
  | cons next rest ih =>
    intro w' h' hw' path recipe hfree
    have ih := ih fun _ => hnames (List.cons_ne_nil _ _)
    refine Keeps.bind (h'.beginReplacement start path recipe) fun _ => Triple.get_bind fun ctx => ?_
    obtain ⟨i, hi⟩ := firstFree_name ctx.graph "cell"
    refine Triple.bind (R := fun _ ctx' => Kept w' start ctx' ∧
      (w'.stays (ctx.graph.firstFree "cell") →
        (start.config? (ctx.graph.firstFree "cell")).isSome = false)) ?_ fun _ => ?_
    · refine Triple.get_bind fun ctx' => ?_
      refine Triple.inspect (inspects_refuseIf _ _ _) (fun _ hc => hc.2.2) fun _ => ?_
      refine Triple.modify fun ctx'' hc => ?_
      obtain ⟨⟨rfl, -, hkept⟩, hnew⟩ := hc
      have hgone := hkept.absent hnew
      exact ⟨hkept.putNode h' _ hgone, hgone⟩
    · refine Triple.assume (fun _ hc => hc.2) fun hgone => ?_
      rw [hi] at hgone ⊢
      have hgone' : ∀ p, below [.key ("cell" ++ toString i)] p = true → w'.stays p →
          (start.config? p).isSome = false := by
        intro p hp hs
        by_cases he : p = [.key ("cell" ++ toString i)]
        · exact he ▸ hgone (he ▸ hs)
        · exact absurd (hw' p hs) (hnames (List.cons_ne_nil _ _) i p hp he)
      have hinner := ih _ (h'.without [.key ("cell" ++ toString i)]) (fun p hp => hw' p hp.1)
        [.key ("cell" ++ toString i)] next fun _ hfenced => hfenced.2 rfl
      have hinner : Keeps (Kept w' start) (SeamlessWorkflow.replaceCellFromBuilder env rest
          [.key ("cell" ++ toString i)] next input) :=
        hinner.conseq (fun _ hc => (Kept.iff_without hgone).mpr hc)
          (fun _ _ hc => (Kept.iff_without hgone).mp hc) fun _ hc => (Kept.iff_without hgone).mp hc
      refine Triple.conseq (P := Kept w' start) (Q := fun _ => Kept w' start) (E := Kept w' start) ?_
        (fun _ hc => hc.1) (fun _ _ hc => hc) fun _ hc => hc
      refine Keeps.bind (Keeps.tryCatch hinner fun e => ?_) fun _ => ?_
      · exact Keeps.bind (h'.deleteSubtree start _ hgone') fun _ => Keeps.throw
      · refine Keeps.bind (h'.addEdge start _ _ _ _) fun _ => mapCell start path fun hfenced => ?_
        exact absurd hfenced (hfree (Or.inl (List.cons_ne_nil _ _)))

section Builders

include h

omit h in
/-- Nothing that is watched is below a node that has not been there. -/
theorem gone_below {w : Watch} {start : Ctx} {path : NodePath}
    (hbelow : ∀ p, below path p = true → p ≠ path → ¬ w.stays p)
    (hgone : w.stays path → (start.config? path).isSome = false) {p : NodePath}
    (hp : below path p = true) (hs : w.stays p) : (start.config? p).isSome = false := by
  by_cases he : p = path
  · exact he ▸ hgone (he ▸ hs)
  · exact absurd hs (hbelow p hp he)

omit h in
/-- A program that starts with a new node. -/
theorem triple_new {program : M Unit} {path : NodePath}
    (hp : (w.stays path → (start.config? path).isSome = false) → Keeps (Kept w start) program) :
    Triple (fun ctx => Kept w start ctx ∧ path ∉ ctx.graph.nodes) program (fun _ => Kept w start)
      (Kept w start) :=
  Triple.assume (fun _ hc => hc.1.absent hc.2) fun hgone =>
    (hp hgone).conseq (fun _ hc => hc.1) (fun _ _ hc => hc) fun _ hc => hc

theorem createCellFromBuilder (path : NodePath) (cell : PreparedCell)
    (hbelow : ∀ p, below path p = true → p ≠ path → ¬ w.stays p)
    (hnames : cell.upstream ≠ [] → w.NamesApart) :
    Triple (fun ctx => Kept w start ctx ∧ path ∉ ctx.graph.nodes)
      (createCellFromBuilder env path cell) (fun _ => Kept w start) (Kept w start) := by
  refine triple_new start fun hgone => Keeps.bind (h.createCell start _ _) fun _ => ?_
  have hreplaced := replaceCellFromBuilder start cell.input cell.upstream hnames (w.without path)
    (h.without path) (fun p hp => hp.1) path cell.recipe fun _ hfenced => hfenced.2 rfl
  refine Keeps.tryCatch (hreplaced.conseq (fun _ hc => (Kept.iff_without hgone).mpr hc)
    (fun _ _ hc => (Kept.iff_without hgone).mp hc) fun _ hc => (Kept.iff_without hgone).mp hc)
    fun e => ?_
  exact Keeps.bind (h.deleteSubtree start path fun p => gone_below hbelow hgone) fun _ => Keeps.throw

theorem createTransformer (path : NodePath) (config : TransformerConfig)
    (hgone : w.stays path → (start.config? path).isSome = false) :
    Keeps (Kept w start) (createTransformer path config) := by
  exact Keeps.bind (Keeps.modify fun ctx hc => hc.putNode h _ hgone) fun _ =>
    h.retainCodeChecksum start path _

theorem createTransformerFromBuilder (path : NodePath) (transformer : PreparedTransformer)
    (hbelow : ∀ p, below path p = true → p ≠ path → ¬ w.stays p) :
    Triple (fun ctx => Kept w start ctx ∧ path ∉ ctx.graph.nodes)
      (createTransformerFromBuilder env path transformer) (fun _ => Kept w start) (Kept w start) := by
  refine triple_new start fun hgone => Keeps.tryCatch ?_ fun e =>
    Keeps.bind (h.deleteSubtree start path fun p => gone_below hbelow hgone) fun _ => Keeps.throw
  refine Keeps.bind (h.createTransformer start path _ hgone) fun _ => Keeps.forM fun arg _ => ?_
  have hpin := (h.without path).setTransformerPin start path (fun hfenced => hfenced.2 rfl)
    (argPin arg).1 (argPin arg).2 (transformer.inputCelltypes.lookup (argPin arg).1) true
  exact hpin.conseq (fun _ hc => (Kept.iff_without hgone).mpr hc)
    (fun _ _ hc => (Kept.iff_without hgone).mp hc) fun _ hc => (Kept.iff_without hgone).mp hc

/-- A replaced transformer gets its new revision before its arguments are wired. -/
theorem finishReplacement (path : NodePath) (old : TransformerFields) (config : TransformerConfig)
    (args : List (String × WriteValue)) (released : List Checksum) :
    Triple (Kept (w.loosen path) start) (finishReplacement env path old config args released)
      (fun _ => Kept w start) (Kept w start) := by
  refine Triple.bind (R := fun _ => Kept (w.loosen path) start) (Triple.modify fun ctx hc =>
    hc.aside (h.loosen path) (aside_decrefAll _ ctx)) fun _ => ?_
  refine Triple.bind (R := fun _ => Kept (w.loosen path) start) (Triple.forM fun pin _ =>
    removeEdgesTargeting_loosen start path _) fun _ => ?_
  refine Triple.bind (removeEdgesTargeting_loosen start path _) fun _ => ?_
  refine Triple.bind (h.bump_loosen start path) fun _ => ?_
  have hwired : ∀ start', Keeps (Kept (w.loosen path) start') (wireArgs env path args) := by
    refine fun start' => Keeps.forM fun arg _ => ?_
    split
    · exact (h.loosen path).setTransformerPin start' path (fun hfenced => hfenced.2 rfl) _ _ _ _
    · exact Keeps.pure
  refine Triple.bind ((keeps_past hwired start).conseq (fun _ hc => hc) (fun _ _ hc => hc) fun _ hc =>
    hc.tighten) fun _ => ?_
  exact (h.deriveAll start).conseq (fun _ hc => hc.tighten) (fun _ _ hc => hc) fun _ hc => hc

theorem replaceTransformerFromBuilder (path : NodePath) (transformer : PreparedTransformer) :
    Keeps (Kept w start) (replaceTransformerFromBuilder env path transformer) := by
  refine Keeps.bind (keeps_transformerAt path) fun fields => ?_
  refine Keeps.bind (Keeps.forM fun arg _ => keeps_checkReplacementArg _ _ _) fun _ => ?_
  refine Keeps.bind (h.modifiesAside start (aside_increfAll _)) fun _ => ?_
  unfold installReplacement
  split
  · exact Keeps.bind (h.modifiesAside start (aside_decrefAll _)) fun _ => keeps_raise _ _
  · refine Keeps.bind (h.modifiesAside start (aside_increfAll _)) fun _ => Keeps.bind Keeps.get fun ctx => ?_
    refine Triple.bind (R := fun _ => Kept (w.loosen path) start) ?_ fun _ => ?_
    · refine Triple.bind (R := fun _ => Kept (w.loosen path) start) (Triple.modify fun ctx' hc => ?_)
        fun _ => Triple.modify fun ctx' hc => ?_
      · exact (hc.loosen path).edit (edits_updateNode path ctx' fun hfenced => absurd rfl hfenced.2)
      · exact hc.aside (h.loosen path) (.of_eq rfl rfl rfl rfl (fun _ => le_rfl) rfl)
    · refine Triple.tryCatch (F := Kept w start) (h.finishReplacement start path _ _ _ _) fun e => ?_
      exact Keeps.bind (h.modifiesAside start aside_poison) fun _ => Keeps.throw

end Builders

/-! ## Assignment -/

section Assignment

include h

/-- A transformer becomes a cell without a new revision. -/
theorem replaceTransformerBySource (path : NodePath) (ep : BoundEndpoint) (hfree : ¬ w.fenced path) :
    Keeps (Kept w start) (replaceTransformerBySource env path ep) := by
  refine Keeps.bind (keeps_refuseIf _ _ _) fun _ => ?_
  refine Keeps.bind (keeps_endpointCelltype ep) fun celltype => Keeps.bind Keeps.get fun ctx => ?_
  refine Keeps.bind (keeps_refuseIf _ _ _) fun _ => Keeps.bind (keeps_checkDeepLink _ _ _) fun _ => ?_
  refine Keeps.bind (Keeps.modify fun ctx hc => hc.releaseCurrent env path) fun _ => ?_
  refine Keeps.bind (keeps_nodeAt path) fun node => ?_
  refine Keeps.bind (h.modifiesAside start (aside_decrefAll _)) fun _ => ?_
  refine Keeps.bind (h.releaseCodeChecksum start path) fun _ => ?_
  refine Keeps.bind (Keeps.modify fun ctx hc => hc.dropRuns h path) fun _ => ?_
  refine Keeps.bind (Keeps.modify fun ctx hc => ?_) fun _ => ?_
  · have hedges : Kept w start (ctx.modifyGraph fun g => g.replaceEdgesTo path) :=
      hc.edit (.modifyGraph fun _ _ => rfl)
    exact hedges.edit (edits_updateNode path _ fun hfenced => absurd hfenced hfree)
  · refine Keeps.bind (h.modifiesAside start fun ctx =>
      (aside_syncModuleRefholds ctx).trans (aside_syncSupersededRefholds _)) fun _ => ?_
    exact h.addEndpointEdge start _ _ _

theorem assignCell (path : NodePath) (value : AssignValue)
    (hcell : ∀ cell, value = .cell cell → cell.Respects w path) :
    Keeps (Kept w start) (assignCell env path value) := by
  have invalid : Keeps (Kept w start) (do
      validateWrite path [] true
      modify (·.clearSenseErrors path)
      raise .typeError "not a checksum" : M Unit) := by
    refine Keeps.bind (keeps_validateWrite _ _ _) fun _ => ?_
    exact Keeps.bind (clearSenseErrors start path) fun _ => keeps_raise _ _
  cases value with
  | endpoint ep => exact h.addEndpointEdge start _ _ _
  | cell cell =>
    obtain ⟨hnames, hfree⟩ := hcell cell rfl
    exact replaceCellFromBuilder start _ _ hnames w h (fun _ hp => hp) path _ hfree
  | checksum c => exact h.cellOperation start path [] (.checksum (some c)) true none
  | context => exact invalid
  | subcontext sourcePrefix => exact invalid
  | transformer transformer => exact invalid
  | config cfg => exact invalid

theorem assignTransformer (path : NodePath) (value : AssignValue)
    (hfree : ∀ ep, value = .endpoint ep → ¬ w.fenced path) :
    Keeps (Kept w start) (assignTransformer env path value) := by
  cases value with
  | endpoint ep => exact h.replaceTransformerBySource start path ep (hfree ep rfl)
  | transformer transformer => exact h.replaceTransformerFromBuilder start path transformer
  | config cfg => exact h.setTransformerCode start path (.config cfg) nofun
  | context => exact keeps_raise _ _
  | subcontext sourcePrefix => exact keeps_raise _ _
  | cell cell => exact keeps_raise _ _
  | checksum c => exact keeps_raise _ _

theorem copyNode (sourcePrefix targetPrefix : NodePath)
    (hbelow : ∀ p, below targetPrefix p = true → ¬ w.stays p) {ctx : Ctx} (hc : Kept w start ctx)
    (path : NodePath) : Kept w start (ctx.copyNode env sourcePrefix targetPrefix path) := by
  unfold Ctx.copyNode
  cases ctx.node? path with
  | none => exact hc
  | some node =>
    dsimp only
    have hgone : ¬ w.stays (targetPrefix ++ path.drop sourcePrefix.length) :=
      hbelow _ (below_iff.mpr (List.prefix_append _ _))
    have hput := hc.putNode h (node.copy env ctx.nextIdent) fun hs => absurd hs hgone
    have hcopied := fun cs => hput.aside h (aside_increfAll cs _)
    split
    · exact (hcopied _).aside h (.of_eq rfl rfl rfl rfl (fun _ => le_rfl) rfl)
    · exact hcopied _

omit h in
theorem copyEdge (sourcePrefix targetPrefix : NodePath) (edge : Edge) :
    Keeps (Kept w start) (copyEdge env sourcePrefix targetPrefix edge) := by
  refine Keeps.ite (appendEdge start _) (Keeps.bind (keeps_resolve _) fun source => ?_)
  refine Triple.get_bind fun ctx => Triple.bind (R := fun _ => Kept w start)
    (Triple.modify fun ctx' hc => ?_) fun _ => appendEdge start _
  obtain ⟨rfl, hc⟩ := hc
  refine hc.edit (.modifyGraph fun p _ => ?_)
  exact congrArg (fun nodes => (AList.lookup p nodes).map Node.config)
    (ContextGraph.sameGraph_assignChainFrom env _ _ _).nodes

/-- A copy overwrites what is at the copied places. -/
theorem copySubcontext (sourcePrefix targetPrefix : NodePath)
    (hbelow : ∀ p, below targetPrefix p = true → ¬ w.stays p) :
    Keeps (Kept w start) (copySubcontext env sourcePrefix targetPrefix) := by
  refine Keeps.bind (modifiesEdit start fun _ => .modifyGraph fun _ _ => rfl) fun _ => ?_
  refine Keeps.bind (keeps_sortedDescendants sourcePrefix) fun descendants => ?_
  refine Keeps.bind (Keeps.modify fun ctx hc => ?_) fun _ => Keeps.bind Keeps.get fun ctx => ?_
  · induction descendants generalizing ctx with
    | nil => exact hc
    | cons path paths ih => exact ih _ (h.copyNode start _ _ hbelow hc path)
  · exact Keeps.bind (Keeps.forM fun edge _ => copyEdge start _ _ edge) fun _ => h.deriveAll start

theorem assignNew (path : NodePath) (value : AssignValue) (hvalue : value.CreatesApart w path) :
    Triple (fun ctx => Kept w start ctx ∧ path ∉ ctx.graph.nodes) (assignNew env path value)
      (fun _ => Kept w start) (Kept w start) := by
  cases value with
  | context => exact triple_new start fun _ => modifiesEdit start fun _ => .modifyGraph fun _ _ => rfl
  | subcontext sourcePrefix =>
    exact triple_new start fun _ => h.copySubcontext start sourcePrefix path hvalue
  | endpoint ep =>
    refine triple_new start fun _ => Keeps.bind (keeps_refuseIf _ _ _) fun _ => ?_
    refine Keeps.bind (keeps_endpointCelltype ep) fun celltype => ?_
    refine Keeps.bind (keeps_checkDeepLink _ _ _) fun _ => ?_
    exact Keeps.bind (h.createCell start _ _) fun _ => h.addEndpointEdge start _ _ _
  | cell cell => exact h.createCellFromBuilder start path cell hvalue.1 hvalue.2
  | transformer transformer => exact h.createTransformerFromBuilder start path transformer hvalue
  | config cfg => exact triple_new start fun hgone => h.createTransformer start path cfg hgone
  | checksum c =>
    exact triple_new start fun _ => Keeps.bind (h.createCell start _ _) fun _ =>
      h.cellOperation start _ _ _ _ _

end Assignment

end Watch.Lawful

end SeamlessWorkflow
