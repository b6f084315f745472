import SeamlessWorkflow.Proofs.OperationMoves

/-!
# The moves of the namespace operations

Deletion removes whole subtrees. Builders create the node that they are assigned to and hidden
cells with free names, and connect what their inputs name.
-/

namespace SeamlessWorkflow

open Program Relation

/-! ## Deletion -/

theorem rewires_dropRuns (path : NodePath) (ctx : Ctx) :
    Rewires ctx (ctx.dropRuns path) ctx.outline ctx.graph.edges := by
  have hq := quiet_cancelRuns (ctx.runtime.recordsAt path)
    { ctx with runtime := ctx.runtime.dropNode path }
  exact ⟨⟨hq.outline, hq.edges, rfl⟩, hq.reasons⟩

theorem quiet_detach (path : NodePath) (driver : String) (ctx : Ctx) :
    Quiet ctx (ctx.detach path driver) := by
  unfold Ctx.detach
  split
  · exact .refl ctx
  · refine ⟨fun q => ?_, by simp [Ctx.modifyGraph], rfl, rfl, (fun h => nomatch h), (fun h => nomatch h)⟩
    unfold Ctx.node? Ctx.modifyGraph
    rw [ContextGraph.lookup_updateNode]
    by_cases hq : q = path
    · rw [if_pos hq, hq, Option.map_map]
      refine congrFun (congrArg Option.map (funext fun node => ?_)) _
      simp only [Function.comp_apply]
      split
      · rfl
      · split <;> rfl
    · rw [if_neg hq]

theorem quiet_detachAll (path : NodePath) (ctx : Ctx) : Quiet ctx (ctx.detachAll path) :=
  Quiet.foldl (f := fun ctx (key : NodePath × String) => ctx.detach path key.2)
    (fun ctx key => quiet_detach path key.2 ctx) _ ctx

theorem quiet_releaseNode (path : NodePath) (node : Node) (ctx : Ctx) :
    Quiet ctx (ctx.releaseNode path node) :=
  (quiet_decrefAll _ ctx).trans (quiet_releaseCode path _)

/-- The nodes of `dead` are gone; the edges stay. -/
structure Deleted (ctx ctx' : Ctx) (dead : NodePath → Prop) : Prop where
  gone : ∀ q, dead q → ctx'.outline q = none
  stays : ∀ q, ¬ dead q → ctx'.outline q = ctx.outline q
  edges : ctx'.graph.edges = ctx.graph.edges
  reasons : KeepsReasons ctx ctx'

theorem outline_eraseNode (path q : NodePath) (ctx : Ctx) :
    (ctx.modifyGraph fun g => g.eraseNode path).outline q =
      if q = path then none else ctx.outline q := by
  show ((ctx.graph.nodes.erase path).lookup q).map Node.outline = _
  by_cases h : q = path
  · rw [if_pos h, h, AList.lookup_erase]; rfl
  · rw [if_neg h, AList.lookup_erase_ne h]; rfl

theorem keepsReasons_eraseNode (path : NodePath) (ctx : Ctx) :
    KeepsReasons ctx (ctx.modifyGraph fun g => g.eraseNode path) := by
  intro q reason hreason
  have hlookup : (ctx.graph.nodes.erase path).lookup q =
      if q = path then none else ctx.graph.nodes.lookup q := by
    by_cases hq : q = path
    · rw [if_pos hq, hq, AList.lookup_erase]
    · rw [if_neg hq, AList.lookup_erase_ne hq]
  have hnode : (ctx.modifyGraph fun g => g.eraseNode path).node? q =
      if q = path then none else ctx.node? q := hlookup
  unfold Ctx.reasonAt at hreason
  rw [hnode] at hreason
  split at hreason
  · cases hreason
  · exact ⟨q, hreason⟩

/-- A node is put that shows no new block reason. -/
theorem keepsReasons_putNode {ctx ctx' : Ctx} (path : NodePath) {node : Node}
    (hold : ∀ reason ∈ node.blockReason, ∃ q, reason ∈ ctx.reasonAt q)
    (hnodes : ctx'.graph.nodes = ctx.graph.nodes.insert path node) :
    KeepsReasons ctx ctx' := by
  intro q reason hreason
  unfold Ctx.reasonAt Ctx.node? at hreason
  rw [hnodes] at hreason
  by_cases hq : q = path
  · rw [hq, AList.lookup_insert, Option.bind_some] at hreason
    exact hold reason hreason
  · rw [AList.lookup_insert_ne hq] at hreason
    exact ⟨q, hreason⟩

theorem deleted_deleteNode (ctx : Ctx) (path : NodePath) :
    Deleted ctx (ctx.deleteNode path) (· = path) := by
  have h0 := quiet_detachAll path ctx
  unfold Ctx.deleteNode
  dsimp only
  generalize ctx.detachAll path = ctx0 at h0
  cases hnode : ctx0.node? path with
  | none =>
    have hnone : ctx0.outline path = none := by simp [Ctx.outline, hnode]
    exact ⟨fun q h => h ▸ hnone, fun q _ => congrFun h0.outline q, h0.edges, h0.reasons⟩
  | some node =>
    -- the node is taken out of the graph; the rest is bookkeeping and its run records
    dsimp only
    have h1 := quiet_releaseNode path node (ctx0.modifyGraph fun g => g.eraseNode path)
    generalize hctx1 : Ctx.releaseNode path node _ = ctx1 at h1
    have h2 := rewires_dropRuns path ctx1
    have houtline : ∀ q, (ctx1.dropRuns path).outline q =
        if q = path then none else ctx.outline q := by
      intro q
      rw [congrFun h2.outline q, congrFun h1.outline q, outline_eraseNode, congrFun h0.outline q]
    exact ⟨fun q h => by rw [houtline, if_pos h], fun q h => by rw [houtline, if_neg h],
      h2.edges.trans (h1.edges.trans h0.edges), ((h0.reasons.trans (keepsReasons_eraseNode path ctx0)).trans
        h1.reasons).trans h2.reasons⟩

theorem deleted_foldl (paths : List NodePath) (ctx : Ctx) :
    Deleted ctx (paths.foldl Ctx.deleteNode ctx) (· ∈ paths) := by
  induction paths generalizing ctx with
  | nil => exact ⟨fun _ hq => absurd hq List.not_mem_nil, fun _ _ => rfl, rfl, keepsReasons_of_nodes rfl⟩
  | cons path paths ih =>
    have h := deleted_deleteNode ctx path
    have h' := ih (ctx.deleteNode path)
    rw [List.foldl_cons]
    refine ⟨fun q hq => ?_, fun q hq => ?_, h'.edges.trans h.edges, h.reasons.trans h'.reasons⟩
    · by_cases hp : q ∈ paths
      · exact h'.gone q hp
      · rw [h'.stays q hp]
        exact h.gone q ((List.mem_cons.mp hq).resolve_right hp)
    · rw [List.mem_cons, not_or] at hq
      rw [h'.stays q hq.2, h.stays q hq.1]

/-- The descendants are the nodes at and below a path. -/
theorem mem_descendants {g : ContextGraph} {path : NodePath} {descendants : List NodePath}
    (h : g.descendants path = some descendants) (q : NodePath) :
    q ∈ descendants ↔ q ∈ g.nodes ∧ below path q = true := by
  unfold ContextGraph.descendants sortPaths at h
  split at h
  · rw [← Option.some.inj h, List.mem_insertionSort, List.mem_filter]
    rfl
  · exact absurd h (by simp)

theorem inspects_sortedDescendants (path : NodePath) :
    Inspects (sortedDescendants path) fun descendants ctx =>
      ctx.graph.descendants path = some descendants := by
  refine Inspects.get_bind fun ctx => ?_
  cases h : ctx.graph.descendants path with
  | none => exact inspects_raise _ _
  | some descendants => exact Inspects.pure fun _ hs => hs ▸ h

section Moving

variable {env : Substrate} {lim : Limits} {start : Ctx}

theorem moving_deleteSubtree (hr : lim.removes) (path : NodePath) :
    Keeps (Moves env lim start) (deleteSubtree env path) := by
  refine Triple.inspect (inspects_sortedDescendants path) (fun _ hc => hc) fun descendants => ?_
  refine Triple.bind (R := fun _ ctx' => ∃ ctx, Moves env lim start ctx ∧
    (∀ q, q ∈ descendants ↔ q ∈ ctx.graph.nodes ∧ below path q = true) ∧
      Deleted ctx ctx' (· ∈ descendants)) (Triple.modify fun ctx hc => ?_) fun _ => ?_
  · exact ⟨ctx, hc.1, mem_descendants hc.2, deleted_foldl descendants ctx⟩
  refine Triple.bind (R := fun _ => Moves env lim start) (Triple.modify fun ctx' hc => ?_) fun _ =>
    Keeps.bind (moving_quiet fun ctx => ?_) fun _ => moving_deriveAll
  · obtain ⟨ctx, hmoves, hmem, hdel⟩ := hc
    refine moves_step hmoves (.remove path hr ⟨⟨?_, ?_, rfl⟩,
      hdel.reasons.trans (keepsReasons_of_nodes rfl)⟩)
    · funext q
      show ctx'.outline q = _
      by_cases hb : below path q = true
      · rw [if_pos hb]
        by_cases hq : q ∈ ctx.graph.nodes
        · exact hdel.gone q ((hmem q).mpr ⟨hq, hb⟩)
        · rw [hdel.stays q fun h => hq ((hmem q).mp h).1]
          rw [mem_nodes_iff_outline] at hq
          simpa using hq
      · rw [if_neg hb]
        exact hdel.stays q fun h => hb ((hmem q).mp h).2
    · show (ctx'.graph.edges.filter _) = _
      rw [hdel.edges]
  · exact (quiet_syncModuleRefholds ctx).trans (quiet_syncSupersededRefholds _)

/-- Deleting the result of a transformer as if it were a pin makes it mixed. -/
theorem moving_delete (hr : lim.removes) {path : NodePath}
    (ht : ∀ node, path = node ++ [.key "result"] → lim.types node .mixed) :
    Keeps (Moves env lim start) (delete env path) := by
  refine Keeps.bind (keeps_refuseIf _ _ _) fun _ => Keeps.bind Keeps.get fun ctx => ?_
  refine Keeps.ite (moving_deleteSubtree hr path) ?_
  unfold deleteInside
  split
  · exact Keeps.pure
  · rename_i node localPath hresolve
    refine Keeps.ite (moving_cellDeletePath _ _) ?_
    split
    · refine moving_deleteTransformerPin fun hpin => ht node ?_
      rw [← hpin]
      exact (LongestPrefix.reads_of_split hresolve).flat.symm
    · exact Keeps.pure

/-! ## Cells -/

/-- A new node stands, and is of its celltype while the turn may give it no other. -/
def Placed (lim : Limits) (path : NodePath) (celltype : Celltype) (ctx : Ctx) : Prop :=
  path ∈ ctx.graph.nodes ∧ ((∀ c, ¬ lim.types path c) → Fits lim path celltype ctx)

theorem alive_putNewNode {P : Ctx → Prop} (hP : Steadfast env lim P) {path : NodePath}
    {body : NodeBody} {celltype : Celltype} (hbody : ∀ ident, Node.celltype { ident, body } = celltype) : Triple
      (fun ctx => Alive env lim start P ctx ∧ path ∉ ctx.graph.nodes ∧ lim.creates ctx path)
      (putNewNode path body)
      (fun _ => Alive env lim start fun ctx => P ctx ∧ Placed lim path celltype ctx)
      (Alive env lim start P) := by
  refine Triple.modify fun ctx hctx => ?_
  set node : Node := { ident := ctx.nextIdent, body := body } with hnode
  set ctx' : Ctx := { ctx.modifyGraph (fun g => g.putNode path node) with
    nextIdent := ctx.nextIdent + 1 } with hctx'
  have houtline : ctx'.outline = Function.update ctx.outline path (some node.outline) := by
    funext q
    show ((ctx.graph.nodes.insert path node).lookup q).map Node.outline = _
    by_cases hq : q = path
    · rw [hq, AList.lookup_insert, Function.update_self]; rfl
    · rw [AList.lookup_insert_ne hq, Function.update_of_ne hq]; rfl
  have hmove : Move env lim.gentle ctx ctx' :=
    .create hctx.2.1 hctx.2.2 ⟨⟨houtline, rfl, rfl⟩,
      keepsReasons_putNode path (fun _ hreason => by cases hreason) rfl⟩
  refine ⟨moves_step hctx.1.1 hmove.of_gentle, hP _ _ hmove hctx.1.2, ?_, fun hfixed => ?_⟩
  · exact (AList.mem_insert ..).mpr (Or.inl rfl)
  · refine ⟨node.outline, by rw [houtline, Function.update_self], Or.inr ⟨hfixed, ?_⟩⟩
    exact hbody ctx.nextIdent

theorem alive_createCell {P : Ctx → Prop} (hP : Steadfast env lim P) {path : NodePath}
    (config : CellConfig) : Triple
      (fun ctx => Alive env lim start P ctx ∧ lim.creates ctx path) (createCell path config)
      (fun _ => Alive env lim start fun ctx => P ctx ∧ Placed lim path config.celltype ctx)
      (Alive env lim start P) := by
  refine Triple.get_bind fun ctx => ?_
  refine Triple.inspect (inspects_refuseIf _ _ _) (fun _ hc => hc.2.1) fun _ => ?_
  exact (alive_putNewNode hP fun _ => rfl).conseq (fun ctx' h => ⟨h.1.2.1, h.1.1 ▸ h.2, h.1.2.2⟩)
    (fun _ _ h => h) fun _ h => h

/-- The path of the cell that a builder is for, or of a hidden cell. -/
def BuilderCell (target path : NodePath) : Prop :=
  path = target ∨ ∃ i : Nat, path = [.key ("cell" ++ toString i)]

/-- The edge that the input of a cell builder brings, to a cell that is built, with its conversions. -/
def InputRef.wires (input : InputRef) (target : NodePath) (source place : Place)
    (recipe : EdgeRecipe) : Prop :=
  match input with
  | .endpoint ep => source = ep.place ∧ recipe = ep.recipe ∧ ∃ path, BuilderCell target path ∧
      place = ⟨path, []⟩
  | .expression first links _ => ∃ i : Nat, [.key ("cell" ++ toString i)] ≠ target ∧
      source = ⟨[.key ("cell" ++ toString i)], (expressionSteps first links).1⟩ ∧
      recipe = expressionRecipe (expressionSteps first links).2.1 (expressionSteps first links).2.2 ∧
      ∃ path, BuilderCell target path ∧ place = ⟨path, []⟩
  | _ => False

/-- The end points that the input of a cell builder connects. -/
def InputRef.joins (input : InputRef) (place : Place) : Prop :=
  match input with
  | .endpoint ep => place = ep.place
  | .expression first links _ =>
    ∃ i : Nat, place = ⟨[.key ("cell" ++ toString i)], (expressionSteps first links).1⟩
  | _ => False

/-- The limits of a builder for a cell: it may create hidden cells, connect whole nodes, connect what
its input names, and give a celltype to the cell itself. -/
structure BuilderLimits (lim : Limits) (input : InputRef) (target : NodePath) : Prop where
  free : ∀ ctx, ∀ i : Nat, lim.creates ctx [.key ("cell" ++ toString i)]
  roots : ∀ path, lim.joins ⟨path, []⟩
  joins : ∀ place, input.joins place → lim.joins place
  hidden : ∀ i : Nat, ∀ path, BuilderCell target path →
    lim.wires ⟨[.key ("cell" ++ toString i)], []⟩ ⟨path, []⟩ {}
  wires : ∀ source place recipe, input.wires target source place recipe →
    lim.wires source place recipe
  only : ∀ path celltype, lim.types path celltype → path = target
  removes : lim.removes

theorem firstFree_name (g : ContextGraph) (stem : String) :
    ∃ i : Nat, g.firstFree stem = [.key (stem ++ toString i)] := by
  unfold ContextGraph.firstFree
  generalize g.nodes.keys.length + g.namespaces.length + 1 = fuel
  have loop : ∀ (fuel start : Nat), ∃ i : Nat,
      Dict.firstFree (fun p => decide (p ∈ g.nodes) || g.namespaces.contains p)
        (fun index => ([.key (stem ++ toString index)] : NodePath)) fuel start =
          [.key (stem ++ toString i)] := by
    intro fuel
    induction fuel with
    | zero => exact fun start => ⟨start, rfl⟩
    | succ fuel ih =>
      intro start
      unfold Dict.firstFree
      split
      · exact ih (start + 1)
      · exact ⟨start, rfl⟩
  exact loop fuel 1

theorem alive_installCell {P : Ctx → Prop} (hP : Steadfast env lim P) {path : NodePath}
    {config : CellConfig} (hfits : ∀ ctx, P ctx → Fits lim path config.celltype ctx)
    (producer : Option ConstantProducer) (expression : Option RootExpression) (bump : Bool) :
    Keeps (Alive env lim start P) (installCell path config producer expression bump) := by
  refine Keeps.bind (alive_cast hP (casts_mapCell fun _ => rfl) hfits) fun _ => ?_
  refine Keeps.bind (keeps_alive hP fun _ => moving_replaceRootProducer path producer) fun _ => ?_
  refine Keeps.bind (keeps_alive hP fun _ => keeps_onlyIf (moving_bumpRevision path)) fun _ => ?_
  exact keeps_alive hP fun _ => moving_removeEdgesTargeting path []

theorem moving_detachForBuilder (path : NodePath) (celltype : Celltype) :
    Keeps (Moves env lim start) (detachForBuilder path celltype) := by
  refine Keeps.bind (keeps_nodeAt path) fun node => Keeps.bind Keeps.get fun ctx => ?_
  refine keeps_onlyIf (Keeps.bind (keeps_refuseIf _ _ _) fun _ => ?_)
  refine Keeps.bind (moving_quiet (quiet_detachAll path)) fun _ => ?_
  exact moving_modifyNode path (fun _ => rfl) fun _ _ h => h

theorem moving_beginReplacement (path : NodePath) (recipe : CellRecipe) :
    Keeps (Moves env lim start) (beginReplacement path recipe) :=
  Keeps.bind (moving_detachForBuilder path recipe.celltype) fun _ =>
    moving_mapCell path fun _ => rfl

/-- A hidden cell is another one than those that stand, and is not given another celltype. -/
theorem alive_createHidden {P : Ctx → Prop} (hP : Steadfast env lim P) {target : NodePath}
    {input : InputRef} (hb : BuilderLimits lim input target)
    (htarget : ∀ ctx, P ctx → target ∈ ctx.graph.nodes) (i : Nat) (config : CellConfig) : Triple
      (Alive env lim start P) (createCell [.key ("cell" ++ toString i)] config)
      (fun _ => Alive env lim start fun ctx => P ctx ∧ [.key ("cell" ++ toString i)] ≠ target ∧
        Fits lim [.key ("cell" ++ toString i)] config.celltype ctx) (Alive env lim start P) := by
  by_cases hpath : [.key ("cell" ++ toString i)] = target
  · -- the name of a cell that stands is refused
    refine Triple.get_bind fun ctx => ?_
    refine Triple.inspect (inspects_refuseIf _ _ _) (fun _ hc => hc.2) fun _ => ?_
    refine Triple.assume (c := False) (fun ctx' hc => hc.2 ?_) False.elim
    rw [← hc.1.1, hpath]
    exact htarget ctx' hc.1.2.2
  · refine (alive_createCell hP config).conseq (fun ctx hc => ⟨hc, hb.free ctx i⟩)
      (fun _ ctx hc => ⟨hc.1, hc.2.1, hpath, hc.2.2.2 fun c hc => hpath (hb.only _ _ hc)⟩)
      fun _ hc => hc

theorem alive_createExpressionRoot {P : Ctx → Prop} (hP : Steadfast env lim P) {target : NodePath}
    {input : InputRef} (hb : BuilderLimits lim input target)
    (htarget : ∀ ctx, P ctx → target ∈ ctx.graph.nodes) (root : Checksum) (celltype : Celltype) :
    Triple (Alive env lim start P) (createExpressionRoot env root celltype)
      (fun path ctx => Alive env lim start P ctx ∧
        ∃ i : Nat, path = [.key ("cell" ++ toString i)] ∧ path ≠ target)
      (Alive env lim start P) := by
  refine Triple.get_bind fun ctx => ?_
  obtain ⟨i, hi⟩ := firstFree_name ctx.graph "cell"
  dsimp only
  rw [hi]
  refine Triple.bind ((alive_createHidden hP hb htarget i _).conseq (fun _ h => h.2)
    (fun _ _ h => h) fun _ h => h) fun _ => ?_
  refine Triple.assume (c := [.key ("cell" ++ toString i)] ≠ target) (fun _ h => h.2.2.1) fun hne => ?_
  refine Triple.conseq (P := Alive env lim start P) (E := Alive env lim start P) ?_
    (fun _ h => ⟨h.1, h.2.1⟩) (fun _ _ h => h) fun _ h => h
  refine Triple.bind (keeps_alive hP fun _ => moving_retainProducer _ _) fun producer => ?_
  refine Triple.bind (keeps_alive hP fun _ => moving_replaceRootProducer _ _) fun _ => ?_
  exact Triple.pure fun _ h => ⟨h, i, rfl, hne⟩

/-- Wiring into a node that stands keeps what gentle moves keep. -/
theorem alive_wire {P : Ctx → Prop} (hP : Steadfast env lim P) {source target : BoundEndpoint}
    (hs : lim.joins source.place) (ht : lim.joins target.place)
    (hw : lim.wires source.place target.place source.recipe)
    (hshallow : target.kind = .cellSubvalue ∨ target.localPath.length ≤ 1) (detach : Bool)
    (ha : ∀ ctx, P ctx → target.nodePath ∈ ctx.graph.nodes) :
    Keeps (Alive env lim start P) (addEndpointEdge env source target detach) := by
  have h : ∀ start, Triple
      (fun ctx => Moves env lim.gentle start ctx ∧ target.nodePath ∈ ctx.graph.nodes)
      (addEndpointEdge env source target detach) (fun _ => Moves env lim.gentle start)
      (Moves env lim.gentle start) := fun start => by
    refine moving_wire ?_ ?_ ?_ hshallow detach (fun ctx (h : _ ∧ _) => h.1) fun ctx h => h.2
    · exact hs
    · exact ht
    · exact hw
  exact (triple_alive hP h).conseq (fun _ h => ⟨h, ha _ h.2⟩) (fun _ _ h => h) fun _ h => h

theorem alive_addEdge {P : Ctx → Prop} (hP : Steadfast env lim P) {source target : Place}
    {recipe : EdgeRecipe} (hs : lim.joins source) (ht : lim.joins target)
    (hw : lim.wires source target recipe) (hshallow : target.localPath.length ≤ 1) (detach : Bool)
    (ha : ∀ ctx, P ctx → target.node ∈ ctx.graph.nodes) :
    Keeps (Alive env lim start P) (addEdge env source target recipe detach) := by
  have h : ∀ start, Triple
      (fun ctx => Moves env lim.gentle start ctx ∧ target.node ∈ ctx.graph.nodes)
      (addEdge env source target recipe detach) (fun _ => Moves env lim.gentle start)
      (Moves env lim.gentle start) := fun start => by
    refine (moving_addEdge ?_ ?_ ?_ hshallow detach).conseq (fun _ h => ⟨h.1, Or.inl h.2⟩)
      (fun _ _ h => h) fun _ h => h
    · exact hs
    · exact ht
    · exact hw
  exact (triple_alive hP h).conseq (fun _ h => ⟨h, ha _ h.2⟩) (fun _ _ h => h) fun _ h => h

/-- A failure may leave the nodes out. -/
theorem Alive.forget {P : Ctx → Prop} {program : M Unit} (h : Keeps (Alive env lim start P) program) :
    Triple (Alive env lim start P) program (fun _ => Alive env lim start P) (Moves env lim start) :=
  h.conseq (fun _ h => h) (fun _ _ h => h) fun _ h => h.1

/-- What is known of a cell while a builder gives it its recipe: gentle moves keep it, the cell that the
builder is for stands, and the cell fits the recipe. -/
structure Fitted (env : Substrate) (lim : Limits) (target path : NodePath) (celltype : Celltype)
    (P : Ctx → Prop) : Prop where
  kept : Steadfast env lim P
  target : ∀ ctx, P ctx → target ∈ ctx.graph.nodes
  fits : ∀ ctx, P ctx → Fits lim path celltype ctx

theorem Fits.mem {path : NodePath} {celltype : Celltype} {ctx : Ctx} (h : Fits lim path celltype ctx) :
    path ∈ ctx.graph.nodes := by
  obtain ⟨node, hnode, -⟩ := h
  rw [mem_nodes_iff_outline, hnode]
  rfl

theorem alive_bindInput {target path : NodePath} {recipe : CellRecipe} {input : InputRef}
    (hb : BuilderLimits lim input target) (hpath : BuilderCell target path) {P : Ctx → Prop}
    (hP : Fitted env lim target path recipe.celltype P) :
    Keeps (Alive env lim start P) (bindInput env path recipe input) := by
  have hinstall := fun producer expression bump => @alive_installCell env lim start P hP.kept path
    recipe.config hP.fits producer expression bump
  cases input with
  | unset => exact hinstall _ _ _
  | checksum c =>
    exact Keeps.bind (keeps_alive hP.kept fun _ => moving_retainProducer _ _) fun _ => hinstall _ _ _
  | endpoint ep =>
    have ht : lim.joins (cellEndpoint path []).place := hb.roots path
    have hw : lim.wires ep.place (cellEndpoint path []).place ep.recipe :=
      hb.wires _ _ _ ⟨rfl, rfl, path, hpath, rfl⟩
    refine Keeps.bind (alive_wire hP.kept (hb.joins _ rfl) ht hw (Or.inr (Nat.zero_le _)) false
      fun ctx h => (hP.fits ctx h).mem) fun _ => ?_
    exact alive_cast hP.kept (casts_mapCell fun _ => rfl) hP.fits
  | rootExpression expression => exact hinstall _ _ _
  | expression first links root =>
    refine Triple.bind (alive_createExpressionRoot hP.kept hb hP.target root _) fun source => ?_
    refine Triple.assume (c := ∃ i : Nat, source = [.key ("cell" ++ toString i)] ∧ source ≠ target)
      (fun _ h => h.2) fun hsource => ?_
    obtain ⟨i, rfl, hne⟩ := hsource
    refine Triple.conseq (P := Alive env lim start P) ?_ (fun _ h => h.1) (fun _ _ h => h)
      fun _ h => h
    refine Keeps.bind (hinstall _ _ _) fun _ => ?_
    exact alive_addEdge hP.kept (hb.joins _ ⟨i, rfl⟩) (hb.roots path)
      (hb.wires _ _ _ ⟨i, hne, rfl, rfl, path, hpath, rfl⟩) (Nat.zero_le _) _
      fun ctx h => (hP.fits ctx h).mem

/-- The induction is on the builders that the cell reads from in turn. A failed upstream builder is
deleted again, so only a success keeps the nodes. -/
theorem alive_replaceCellFromBuilder {input : InputRef} {target : NodePath}
    (hb : BuilderLimits lim input target) (upstream : List CellRecipe) :
    ∀ (path : NodePath) (recipe : CellRecipe) (P : Ctx → Prop), BuilderCell target path →
      Fitted env lim target path recipe.celltype P → Triple (Alive env lim start P)
        (replaceCellFromBuilder env upstream path recipe input)
        (fun _ => Alive env lim start P) (Moves env lim start) := by
  induction upstream with
  | nil =>
    intro path recipe P hpath hP
    exact Alive.forget (Keeps.bind (keeps_alive hP.kept fun _ => moving_beginReplacement _ _)
      fun _ => alive_bindInput hb hpath hP)
  | cons next rest ih =>
    intro path recipe P hpath hP
    refine Triple.bind (Alive.forget (keeps_alive hP.kept fun _ =>
      moving_beginReplacement path recipe)) fun _ => ?_
    refine Triple.get_bind fun ctx => ?_
    obtain ⟨i, hi⟩ := firstFree_name ctx.graph "cell"
    dsimp only
    rw [hi]
    refine Triple.bind ((alive_createHidden hP.kept hb hP.target i _).conseq (fun _ h => h.2)
      (fun _ _ h => h) fun _ h => h.1) fun _ => ?_
    refine Triple.bind (R := fun _ => Alive env lim start P) ?_ fun _ => Alive.forget ?_
    · -- the hidden cell gets the recipe of the next builder
      have hhidden : Fitted env lim target [.key ("cell" ++ toString i)] next.celltype fun ctx =>
          P ctx ∧ Fits lim [.key ("cell" ++ toString i)] next.celltype ctx :=
        ⟨hP.kept.and (steadfast_fits _ _), fun ctx h => hP.target ctx h.1, fun ctx h => h.2⟩
      refine (Triple.tryCatch (ih _ next _ (Or.inr ⟨i, rfl⟩) hhidden) fun e => Triple.bind
        (moving_deleteSubtree hb.removes _) fun _ => Triple.throw fun _ h => h).conseq
          (fun ctx h => ⟨h.1, h.2.1, h.2.2.2⟩) (fun _ ctx h => ⟨h.1, h.2.1⟩) fun _ h => h
    · refine Keeps.bind (alive_addEdge hP.kept (hb.roots _) (hb.roots path) (hb.hidden i path hpath)
        (Nat.zero_le _) _ fun ctx h => (hP.fits ctx h).mem) fun _ => ?_
      exact alive_cast hP.kept (casts_mapCell fun _ => rfl) hP.fits

/-- The cell that a builder is for. -/
theorem fitted_target {path : NodePath} {celltype : Celltype} (ht : lim.types path celltype) :
    Fitted env lim path path celltype fun ctx => path ∈ ctx.graph.nodes where
  kept := steadfast_node path
  target _ h := h
  fits ctx h := by
    obtain ⟨node, hnode⟩ := Option.isSome_iff_exists.mp (mem_nodes_iff_outline.mp h)
    exact ⟨node, hnode, Or.inl ht⟩

theorem moving_createCellFromBuilder {path : NodePath} {cell : PreparedCell}
    (hb : BuilderLimits lim cell.input path) (ht : lim.types path cell.recipe.celltype) : Triple
      (fun ctx => Moves env lim start ctx ∧ lim.creates ctx path)
      (createCellFromBuilder env path cell) (fun _ => Moves env lim start) (Moves env lim start) := by
  refine Triple.bind ((alive_createCell steadfast_true _).conseq
    (fun _ h => ⟨⟨h.1, trivial⟩, h.2⟩) (fun _ _ h => h) fun _ h => h.1) fun _ => ?_
  refine Triple.tryCatch (F := Moves env lim start) ?_ fun e =>
    Triple.bind (moving_deleteSubtree hb.removes path) fun _ => Triple.throw fun _ h => h
  exact (alive_replaceCellFromBuilder hb _ path _ _ (Or.inl rfl) (fitted_target ht)).conseq
    (fun _ h => ⟨h.1, h.2.2.1⟩) (fun _ _ h => h.1) fun _ h => h

/-! ## Transformers -/

theorem moving_createTransformer (path : NodePath) (config : TransformerConfig) : Triple
      (fun ctx => Moves env lim start ctx ∧ path ∉ ctx.graph.nodes ∧ lim.creates ctx path)
      (createTransformer path config)
      (fun _ => Moves env lim start) (Moves env lim start) := by
  refine Triple.bind ((alive_putNewNode steadfast_true fun _ => rfl).conseq
    (fun _ h => ⟨⟨h.1, trivial⟩, h.2⟩) (fun _ _ h => h.1) fun _ h => h.1) fun _ => ?_
  exact moving_retainCodeChecksum path _

/-- The end points that the arguments of a transformer builder connect. -/
def PreparedTransformer.joins (transformer : PreparedTransformer) (path : NodePath)
    (place : Place) : Prop :=
  ∃ arg ∈ transformer.args, ∃ ep, (argPin arg).2 = .endpoint ep ∧
    (place = ep.place ∨ place = ⟨path, [.key (argPin arg).1]⟩)

/-- The edges that the arguments of a transformer builder bring, with their conversions. -/
def PreparedTransformer.wires (transformer : PreparedTransformer) (path : NodePath)
    (source place : Place) (recipe : EdgeRecipe) : Prop :=
  ∃ arg ∈ transformer.args, ∃ ep, (argPin arg).2 = .endpoint ep ∧ source = ep.place ∧
    place = ⟨path, [.key (argPin arg).1]⟩ ∧ recipe = ep.recipe

theorem moving_createTransformerFromBuilder {path : NodePath} {transformer : PreparedTransformer}
    (hr : lim.removes) (hj : ∀ place, transformer.joins path place → lim.joins place)
    (hw : ∀ source place recipe, transformer.wires path source place recipe →
      lim.wires source place recipe) : Triple
      (fun ctx => Moves env lim start ctx ∧ path ∉ ctx.graph.nodes ∧ lim.creates ctx path)
      (createTransformerFromBuilder env path transformer)
      (fun _ => Moves env lim start) (Moves env lim start) := by
  refine Triple.tryCatch (F := Moves env lim start) ?_ fun e =>
    Triple.bind (moving_deleteSubtree hr path) fun _ => Triple.throw fun _ h => h
  refine Triple.bind (moving_createTransformer path _) fun _ => Keeps.forM fun arg harg => ?_
  refine moving_setTransformerPin path _ _ _ true fun ep hep => ⟨?_, ?_, ?_⟩
  · exact hj _ ⟨arg, harg, ep, hep, Or.inl rfl⟩
  · exact hj _ ⟨arg, harg, ep, hep, Or.inr rfl⟩
  · exact hw _ _ _ ⟨arg, harg, ep, hep, rfl, rfl, rfl⟩

theorem keeps_checkReplacementArg {I : Ctx → Prop} (path : NodePath) (pin : String)
    (value : WriteValue) : Keeps I (checkReplacementArg path pin value) := by
  cases value with
  | checksum c => exact Keeps.pure
  | endpoint ep =>
    refine Keeps.bind (keeps_refuseIf _ _ _) fun _ => ?_
    refine Keeps.bind (keeps_refuseIf _ _ _) fun _ => ?_
    refine Keeps.bind (keeps_resolve _) fun _ => Keeps.bind Keeps.get fun ctx => ?_
    exact Keeps.bind (keeps_refuseIf _ _ _) fun _ => keeps_checkAuthority _ _

theorem moving_wireArgs {path : NodePath} {args : List (String × WriteValue)}
    (hj : ∀ arg ∈ args, ∀ ep, arg.2 = .endpoint ep →
      lim.joins ep.place ∧ lim.joins ⟨path, [.key arg.1]⟩ ∧
        lim.wires ep.place ⟨path, [.key arg.1]⟩ ep.recipe) :
    Keeps (Moves env lim start) (wireArgs env path args) := by
  refine Keeps.forM fun arg harg => ?_
  split
  · rename_i ep hep
    refine moving_setTransformerPin path _ _ _ true fun ep' hep' => ?_
    cases hep'
    exact hj arg harg ep hep
  · exact Keeps.pure

theorem moving_finishReplacement {path : NodePath} {args : List (String × WriteValue)}
    (hj : ∀ arg ∈ args, ∀ ep, arg.2 = .endpoint ep →
      lim.joins ep.place ∧ lim.joins ⟨path, [.key arg.1]⟩ ∧
        lim.wires ep.place ⟨path, [.key arg.1]⟩ ep.recipe)
    (old : TransformerFields) (config : TransformerConfig) (released : List Checksum) :
    Keeps (Moves env lim start) (finishReplacement env path old config args released) := by
  refine Keeps.bind (moving_quiet (quiet_decrefAll released)) fun _ => ?_
  refine Keeps.bind (Keeps.forM fun pin _ => moving_removeEdgesTargeting path _) fun _ => ?_
  refine Keeps.bind (moving_removeEdgesTargeting path _) fun _ => ?_
  refine Keeps.bind (moving_bumpRevision path) fun _ => ?_
  exact Keeps.bind (moving_wireArgs hj) fun _ => moving_deriveAll

theorem moving_publishReplacement {path : NodePath} {config : TransformerConfig}
    (ht : lim.types path (config.celltypeOf "result"))
    (producers : AList (fun _ : String => ConstantProducer)) (code : Checksum) :
    Keeps (Moves env lim start) (publishReplacement path config producers code) :=
  Keeps.bind (moving_cast (casts_mapTransformer fun _ => rfl) ht) fun _ =>
    moving_quiet fun _ => .of_eq rfl rfl rfl rfl rfl

/-- A builder decides the celltype of the result. -/
theorem celltypeOf_replacementConfig (old new : TransformerConfig) (pin : String) :
    (replacementConfig old new).celltypeOf pin = new.celltypeOf pin := by
  unfold replacementConfig
  split <;> rfl

theorem moving_replaceTransformerFromBuilder {path : NodePath} {transformer : PreparedTransformer}
    (hj : ∀ place, transformer.joins path place → lim.joins place)
    (hw : ∀ source place recipe, transformer.wires path source place recipe →
      lim.wires source place recipe)
    (ht : lim.types path (transformer.config.celltypeOf "result")) :
    Keeps (Moves env lim start) (replaceTransformerFromBuilder env path transformer) := by
  have hargs : ∀ arg ∈ transformer.args.map argPin, ∀ ep, arg.2 = .endpoint ep →
      lim.joins ep.place ∧ lim.joins ⟨path, [.key arg.1]⟩ ∧
        lim.wires ep.place ⟨path, [.key arg.1]⟩ ep.recipe := by
    intro arg harg ep hep
    obtain ⟨x, hx, rfl⟩ := List.mem_map.mp harg
    exact ⟨hj _ ⟨x, hx, ep, hep, Or.inl rfl⟩, hj _ ⟨x, hx, ep, hep, Or.inr rfl⟩,
      hw _ _ _ ⟨x, hx, ep, hep, rfl, rfl, rfl⟩⟩
  refine Keeps.bind (keeps_transformerAt path) fun fields => ?_
  refine Keeps.bind (Keeps.forM fun arg _ => keeps_checkReplacementArg _ _ _) fun _ => ?_
  refine Keeps.bind (moving_quiet (quiet_increfAll _)) fun _ => ?_
  unfold installReplacement
  split
  · exact Keeps.bind (moving_quiet (quiet_decrefAll _)) fun _ => keeps_raise _ _
  · refine Keeps.bind (moving_quiet (quiet_increfAll _)) fun _ => Keeps.bind Keeps.get fun ctx => ?_
    refine Keeps.bind (moving_publishReplacement ?_ _ _) fun _ => ?_
    · rwa [celltypeOf_replacementConfig]
    refine Keeps.tryCatch (moving_finishReplacement hargs _ _ _) fun e => ?_
    exact Keeps.bind (moving_quiet quiet_poison) fun _ => Keeps.throw

/-! ## Assignment -/

theorem rewires_replaceCurrentChecksum (path : NodePath) (checksum : Option Checksum) (ctx : Ctx) :
    ctx.replaceCurrentChecksum env path checksum = ctx ∨
      Rewires ctx (ctx.replaceCurrentChecksum env path checksum) ctx.outline ctx.graph.edges := by
  unfold Ctx.replaceCurrentChecksum
  cases ctx.node? path with
  | none => exact Or.inl rfl
  | some node =>
    refine Or.inr ?_
    dsimp only
    generalize checksum.map (fun c => env.canonicalize c node.celltype) = new
    have h1 := quiet_increfAll new.toList ctx
    generalize ctx.increfAll new.toList = ctx1 at h1
    have h2 := quiet_decrefAll node.currentChecksum.toList
      (ctx1.setDerived path fun node => { node with currentChecksum := new })
    refine ⟨⟨?_, ?_, rfl⟩, ?_⟩
    · refine h2.outline.trans (Eq.trans (funext fun q => ?_) h1.outline)
      refine outline_updateNode ?_ ctx1.graph path q
      exact fun _ => rfl
    · refine h2.edges.trans (Eq.trans ?_ h1.edges)
      simp [Ctx.setDerived]
    · have hset : KeepsReasons ctx1 (ctx1.setDerived path fun node =>
          { node with currentChecksum := new }) :=
        keepsReasons_updateNode (f := fun node => { node with currentChecksum := new })
          (fun _ _ h => h) rfl path rfl
      exact (h1.reasons.trans hset).trans h2.reasons

theorem moving_replaceCurrentChecksum (path : NodePath) (checksum : Option Checksum) :
    Keeps (Moves env lim start) (modify (·.replaceCurrentChecksum env path checksum) : M Unit) := by
  refine Keeps.modify fun ctx h => ?_
  rcases @rewires_replaceCurrentChecksum env path checksum ctx with he | hr
  · rwa [he]
  · exact moves_step h (.edit hr)

/-- A transformer becomes a cell, and the edges into it are dropped. -/
theorem alive_retype {P : Ctx → Prop} (hP : Steadfast env lim P) {path : NodePath}
    {celltype : Celltype} (ht : lim.types path celltype) (ha : ∀ ctx, P ctx → path ∈ ctx.graph.nodes) :
    Keeps (Alive env lim start P)
      (modifyGraph fun g => (g.replaceEdgesTo path).updateNode path (Node.toCell celltype)) := by
  refine Keeps.modify fun ctx hctx => ?_
  obtain ⟨node, hnode⟩ := Option.isSome_iff_exists.mp (mem_nodes_iff_outline.mp (ha ctx hctx.2))
  refine hctx.extend hP (ReflTransGen.single
    (.retype hnode ht ⟨⟨funext fun q => ?_, ContextGraph.updateNode_edges _ _ _, rfl⟩,
      keepsReasons_updateNode (f := Node.toCell celltype) (fun _ _ h => h)
        (g := ctx.graph.replaceEdgesTo path) rfl path rfl⟩))
  show (((ctx.graph.replaceEdgesTo path).updateNode path (Node.toCell celltype)).nodes.lookup q).map
    Node.outline = _
  rw [ContextGraph.lookup_updateNode]
  by_cases hq : q = path
  · rw [if_pos hq, hq, Function.update_self]
    show ((ctx.graph.nodes.lookup path).map _).map Node.outline = _
    unfold Ctx.outline Ctx.node? at hnode
    obtain ⟨record, hrecord, rfl⟩ := Option.map_eq_some_iff.mp hnode
    rw [hrecord]
    rfl
  · rw [if_neg hq, Function.update_of_ne hq]
    rfl

/-- The celltype of a bound source. -/
def BoundEndpoint.celltypeIn (ep : BoundEndpoint) (g : ContextGraph) : Option Celltype :=
  ep.celltype <|> (g.nodes.lookup ep.nodePath).map Node.celltype

theorem inspects_endpointCelltype (ep : BoundEndpoint) :
    Inspects (endpointCelltype ep) fun celltype ctx => ep.celltypeIn ctx.graph = some celltype := by
  unfold endpointCelltype BoundEndpoint.celltypeIn
  cases ep.celltype with
  | some celltype => exact Inspects.pure fun _ => rfl
  | none =>
    refine Inspects.bind (inspects_nodeAt _) fun node => Inspects.pure fun ctx hnode => ?_
    exact congrArg (Option.map Node.celltype) hnode

theorem moving_replaceTransformerBySource {path : NodePath} {ep : BoundEndpoint}
    (hs : lim.joins ep.place) (ht : lim.joins ⟨path, []⟩)
    (hw : lim.wires ep.place ⟨path, []⟩ ep.recipe) : Triple
      (fun ctx => Moves env lim start ctx ∧ ∀ celltype, ep.celltypeIn ctx.graph = some celltype →
        lim.types path celltype) (replaceTransformerBySource env path ep)
      (fun _ => Moves env lim start) (Moves env lim start) := by
  refine Triple.bind_keeps (keeps_refuseIf _ _ _) (fun _ h => h.1) fun _ => ?_
  refine Triple.inspect (inspects_endpointCelltype ep) (fun _ h => h.1) fun celltype => ?_
  refine Triple.assume (fun ctx h => h.1.2 celltype h.2) fun htypes => ?_
  refine Triple.conseq (P := Moves env lim start) (E := Moves env lim start)
    (Q := fun _ => Moves env lim start) ?_ (fun _ h => h.1.1) (fun _ _ h => h) fun _ h => h
  refine Keeps.bind Keeps.get fun ctx => ?_
  refine Keeps.bind (keeps_refuseIf _ _ _) fun _ => ?_
  refine Keeps.bind (keeps_checkDeepLink _ _ _) fun _ => ?_
  refine Keeps.bind (moving_replaceCurrentChecksum path none) fun _ => ?_
  refine Triple.inspect (inspects_nodeAt path) (fun _ h => h) fun node => ?_
  have hP : Steadfast env lim fun ctx => path ∈ ctx.graph.nodes := steadfast_node path
  refine Triple.conseq (P := Alive env lim start fun ctx => path ∈ ctx.graph.nodes)
    (Q := fun _ => Alive env lim start fun ctx => path ∈ ctx.graph.nodes)
    (E := Alive env lim start fun ctx => path ∈ ctx.graph.nodes) ?_
    (fun _ h => ⟨h.1, mem_nodes_of_node h.2⟩) (fun _ _ h => h.1) fun _ h => h.1
  refine Keeps.bind (keeps_alive hP fun _ => moving_quiet (quiet_decrefAll _)) fun _ => ?_
  refine Keeps.bind (keeps_alive hP fun _ => moving_releaseCodeChecksum path) fun _ => ?_
  refine Keeps.bind (keeps_alive hP fun _ => moving_modify fun ctx =>
    .edit (rewires_dropRuns path ctx)) fun _ => ?_
  refine Keeps.bind (alive_retype hP htypes fun _ h => h) fun _ => ?_
  refine Keeps.bind (keeps_alive hP fun _ => moving_quiet fun ctx =>
    (quiet_syncModuleRefholds ctx).trans (quiet_syncSupersededRefholds _)) fun _ => ?_
  have ht : lim.joins (cellEndpoint path []).place := ht
  have hw : lim.wires ep.place (cellEndpoint path []).place ep.recipe := hw
  exact alive_wire hP hs ht hw (Or.inr (Nat.zero_le _)) false fun _ h => h

/-- The end points that an assigned value connects. -/
def AssignValue.joins (value : AssignValue) (path : NodePath) (place : Place) : Prop :=
  match value with
  | .endpoint ep => place = ep.place
  | .cell prepared => prepared.input.joins place
  | .transformer prepared => prepared.joins path place
  | _ => False

/-- The edges that an assigned value brings, with their conversions, apart from those between the
cells that a builder makes. -/
def AssignValue.wires (value : AssignValue) (path : NodePath) (source place : Place)
    (recipe : EdgeRecipe) : Prop :=
  match value with
  | .endpoint ep => source = ep.place ∧ place = ⟨path, []⟩ ∧ recipe = ep.recipe
  | .cell prepared => prepared.input.wires path source place recipe
  | .transformer prepared => prepared.wires path source place recipe
  | _ => False

/-- The celltype that an assigned value gives to a node that exists. -/
def AssignValue.celltype (value : AssignValue) (g : ContextGraph) : Option Celltype :=
  match value with
  | .endpoint ep => ep.celltypeIn g
  | .cell prepared => some prepared.recipe.celltype
  | .transformer prepared => some (prepared.config.celltypeOf "result")
  | .config cfg => some (cfg.celltypeOf "result")
  | .context | .subcontext _ | .checksum _ => none

/-- The limits of an assignment, apart from namespace copies. -/
structure AssignLimits (lim : Limits) (start : Ctx) (path : NodePath) (value : AssignValue) :
    Prop where
  target : lim.creates start path
  free : ∀ cell, value = .cell cell → ∀ ctx, ∀ i : Nat,
    lim.creates ctx [.key ("cell" ++ toString i)]
  roots : ∀ path, lim.joins ⟨path, []⟩
  joins : ∀ place, value.joins path place → lim.joins place
  hidden : ∀ cell, value = .cell cell → ∀ i : Nat, ∀ built, BuilderCell path built →
    lim.wires ⟨[.key ("cell" ++ toString i)], []⟩ ⟨built, []⟩ {}
  wires : ∀ source place recipe, value.wires path source place recipe →
    lim.wires source place recipe
  types : ∀ celltype, value.celltype start.graph = some celltype → lim.types path celltype
  only : ∀ q celltype, lim.types q celltype → q = path
  removes : lim.removes

theorem AssignLimits.builder {path : NodePath} {cell : PreparedCell}
    (h : AssignLimits lim start path (.cell cell)) : BuilderLimits lim cell.input path :=
  ⟨h.free cell rfl, h.roots, h.joins, h.hidden cell rfl, h.wires, h.only, h.removes⟩

theorem moving_assignCell {path : NodePath} {value : AssignValue}
    (h : AssignLimits lim start path value) : Triple
      (fun ctx => Moves env lim start ctx ∧ path ∈ ctx.graph.nodes) (assignCell env path value)
      (fun _ => Moves env lim start) (Moves env lim start) := by
  have invalid : Triple (fun ctx => Moves env lim start ctx ∧ path ∈ ctx.graph.nodes)
      (do validateWrite path [] true
          modify (·.clearSenseErrors path)
          raise .typeError "not a checksum" : M Unit)
      (fun _ => Moves env lim start) (Moves env lim start) := by
    refine Triple.conseq (P := Moves env lim start) (E := Moves env lim start) ?_ (fun _ h => h.1)
      (fun _ _ h => h) fun _ h => h
    refine Keeps.bind (keeps_validateWrite _ _ _) fun _ => ?_
    exact Keeps.bind (moving_clearSenseErrors path) fun _ => keeps_raise _ _
  cases value with
  | endpoint ep =>
    have ht : lim.joins (cellEndpoint path []).place := h.roots path
    have hw : lim.wires ep.place (cellEndpoint path []).place ep.recipe := h.wires _ _ _ ⟨rfl, rfl, rfl⟩
    exact moving_wire (h.joins _ rfl) ht hw (Or.inr (Nat.zero_le _)) true (fun _ h => h.1)
      fun _ h => h.2
  | cell cell =>
    exact (alive_replaceCellFromBuilder h.builder _ path _ _ (Or.inl rfl)
      (fitted_target (h.types _ rfl))).conseq (fun _ hc => hc) (fun _ _ h => h.1) fun _ h => h
  | checksum c =>
    exact (moving_cellOperation path [] (.checksum (some c)) true none (by simp)).conseq
      (fun _ h => h.1) (fun _ _ h => h) fun _ h => h
  | context => exact invalid
  | subcontext sourcePrefix => exact invalid
  | transformer transformer => exact invalid
  | config cfg => exact invalid

theorem moving_assignTransformer {path : NodePath} {value : AssignValue}
    (h : AssignLimits lim start path value) : Triple (· = start) (assignTransformer env path value)
      (fun _ => Moves env lim start) (Moves env lim start) := by
  have hrefl : ∀ ctx, ctx = start → Moves env lim start ctx := fun ctx hc => hc ▸ ReflTransGen.refl
  have refused : ∀ kind text, Triple (· = start) (raise kind text : M Unit)
      (fun _ => Moves env lim start) (Moves env lim start) := fun _ _ => Triple.throw hrefl
  cases value with
  | endpoint ep =>
    exact (moving_replaceTransformerBySource (h.joins _ rfl) (h.roots path)
      (h.wires _ _ _ ⟨rfl, rfl, rfl⟩)).conseq (fun ctx hc => ⟨hrefl ctx hc, fun celltype hcelltype =>
        h.types celltype (hc ▸ hcelltype)⟩) (fun _ _ h => h) fun _ h => h
  | transformer transformer =>
    exact (moving_replaceTransformerFromBuilder h.joins h.wires (h.types _ rfl)).conseq hrefl
      (fun _ _ h => h) fun _ h => h
  | config cfg =>
    exact (moving_setTransformerCode_config (h.types _ rfl)).conseq hrefl (fun _ _ h => h)
      fun _ h => h
  | context => exact refused _ _
  | subcontext sourcePrefix => exact refused _ _
  | cell cell => exact refused _ _
  | checksum c => exact refused _ _

theorem moving_assignNew {path : NodePath} {value : AssignValue}
    (h : AssignLimits lim start path value) (hnew : path ∉ start.graph.nodes)
    (hcopy : ∀ sourcePrefix, value = .subcontext sourcePrefix → lim.copies start sourcePrefix path) :
    Triple (· = start) (assignNew env path value) (fun _ => Moves env lim start)
      (Moves env lim start) := by
  have hrefl : ∀ ctx, ctx = start → Moves env lim start ctx := fun ctx hc => hc ▸ ReflTransGen.refl
  have hplace : ∀ ctx, ctx = start → path ∉ ctx.graph.nodes ∧ lim.creates ctx path :=
    fun ctx hc => hc ▸ ⟨hnew, h.target⟩
  cases value with
  | context =>
    refine Triple.modify fun ctx hc => ?_
    exact moves_step (hrefl ctx hc) (.edit (.rewire rfl rfl))
  | subcontext sourcePrefix =>
    exact Triple.of_final fun ctx hc => moves_step (hrefl ctx hc) (.copy (hc ▸ hcopy _ rfl))
  | endpoint ep =>
    refine Triple.bind_keeps (keeps_refuseIf _ _ _) hrefl fun _ => ?_
    refine Triple.bind_keeps (keeps_endpointCelltype ep) hrefl fun celltype => ?_
    refine Triple.bind_keeps (keeps_checkDeepLink _ _ _) hrefl fun _ => ?_
    have ht : lim.joins (cellEndpoint path []).place := h.roots path
    refine Triple.bind ((alive_createCell steadfast_true _).conseq
      (fun ctx hc => ⟨⟨hrefl ctx hc, trivial⟩, (hplace ctx hc).2⟩) (fun _ _ h => h) fun _ h => h.1)
      fun _ => ?_
    have hw : lim.wires ep.place (cellEndpoint path []).place ep.recipe := h.wires _ _ _ ⟨rfl, rfl, rfl⟩
    exact (alive_wire (steadfast_node path) (h.joins _ rfl) ht hw (Or.inr (Nat.zero_le _)) false
      fun _ h => h).conseq
      (fun _ h => ⟨h.1, h.2.2.1⟩) (fun _ _ h => h.1) fun _ h => h.1
  | cell cell =>
    exact (moving_createCellFromBuilder h.builder (h.types _ rfl)).conseq
      (fun ctx hc => ⟨hrefl ctx hc, (hplace ctx hc).2⟩) (fun _ _ h => h) fun _ h => h
  | transformer transformer =>
    exact (moving_createTransformerFromBuilder h.removes h.joins h.wires).conseq
      (fun ctx hc => ⟨hrefl ctx hc, hplace ctx hc⟩) (fun _ _ h => h) fun _ h => h
  | config cfg =>
    exact (moving_createTransformer path cfg).conseq (fun ctx hc => ⟨hrefl ctx hc, hplace ctx hc⟩)
      (fun _ _ h => h) fun _ h => h
  | checksum c =>
    refine Triple.bind ((alive_createCell steadfast_true _).conseq
      (fun ctx hc => ⟨⟨hrefl ctx hc, trivial⟩, (hplace ctx hc).2⟩) (fun _ _ h => h.1) fun _ h => h.1)
      fun _ => ?_
    exact moving_cellOperation path [] _ true none (by simp)

/-- `_assign` from a state in which the turn starts. -/
theorem moving_assign {path : NodePath} {value : AssignValue}
    (h : AssignLimits lim start path value)
    (hcopy : ∀ sourcePrefix, value = .subcontext sourcePrefix → path ∉ start.graph.nodes →
      lim.copies start sourcePrefix path) :
    Triple (· = start) (assign env path value) (fun _ => Moves env lim start)
      (Moves env lim start) := by
  have hrefl : ∀ ctx, ctx = start → Moves env lim start ctx := fun ctx hc => hc ▸ ReflTransGen.refl
  refine Triple.bind_keeps (keeps_refuseIf _ _ _) hrefl fun _ => ?_
  refine Triple.bind_keeps (keeps_refuseIf _ _ _) hrefl fun _ => ?_
  refine Triple.bind (R := fun _ => Moves env lim start) ?_ fun _ => moving_deriveAll
  refine Triple.get_bind fun ctx => Triple.assume (c := ctx = start) (fun _ hc => hc.1 ▸ hc.2) ?_
  rintro rfl
  refine Triple.conseq (P := (· = ctx)) ?_ (fun _ hc => hc.1) (fun _ _ h => h) fun _ h => h
  cases hnode : ctx.node? path with
  | some node =>
    refine Triple.ite (fun _ => ?_) fun _ => moving_assignTransformer h
    exact (moving_assignCell h).conseq (fun ctx' hc => ⟨hrefl _ hc, hc ▸ mem_nodes_of_node hnode⟩)
      (fun _ _ h => h) fun _ h => h
  | none =>
    have hnew : path ∉ ctx.graph.nodes := by
      rw [← AList.lookup_isSome]
      unfold Ctx.node? at hnode
      simp [hnode]
    exact moving_assignNew h hnew fun sourcePrefix hv => hcopy sourcePrefix hv hnew

end Moving

end SeamlessWorkflow
