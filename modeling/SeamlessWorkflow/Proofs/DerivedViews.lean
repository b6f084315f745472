import SeamlessWorkflow.Proofs.DerivedNodes

/-!
# What the derivation of a node reads

The outcome of a node depends on the design of the graph, on the results of the nodes upstream of it,
and on the facts that its evaluation demands. So it stays the outcome while the derivation
goes on to other nodes and drops the facts that nobody has demanded.
-/

namespace SeamlessWorkflow

/-- What the derivation of a target reads of a source besides its design. -/
def Node.shown (node : Node) : NodeState × Option BlockReason × Option Checksum :=
  (node.state, node.blockReason, node.currentChecksum)

/-- What every derivation reads of a node: its configuration and its own inputs. -/
def Node.design (node : Node) : NodeBody :=
  match node.body with
  | .cell fields => .cell fields
  | .transformer fields => .transformer { config := fields.config, pinProducers := fields.pinProducers }

/-- The same design and edges, and the same results at the nodes that are seen. -/
structure ContextGraph.Agrees (seen : NodePath → Prop) (g g' : ContextGraph) : Prop where
  design : ∀ q, (g'.nodes.lookup q).map Node.design = (g.nodes.lookup q).map Node.design
  edges : g'.edges = g.edges
  shown : ∀ q, seen q → (g'.nodes.lookup q).map Node.shown = (g.nodes.lookup q).map Node.shown

/-! ## The design -/

/-- Two bodies of one design. -/
inductive NodeBody.Alike : NodeBody → NodeBody → Prop
  | cell (fields : CellFields) : Alike (.cell fields) (.cell fields)
  | transformer {fields fields' : TransformerFields} : fields'.config = fields.config →
      fields'.pinProducers = fields.pinProducers → Alike (.transformer fields) (.transformer fields')

theorem Node.alike_of_design {a b : Node} (h : b.design = a.design) : a.body.Alike b.body := by
  unfold Node.design at h
  cases ha : a.body with
  | cell fields =>
    cases hb : b.body with
    | cell fields' =>
      simp only [ha, hb] at h
      obtain rfl := NodeBody.cell.inj h
      exact .cell _
    | transformer fields' =>
      simp only [ha, hb] at h
      cases h
  | transformer fields =>
    cases hb : b.body with
    | cell fields' =>
      simp only [ha, hb] at h
      cases h
    | transformer fields' =>
      simp only [ha, hb] at h
      have hfields := NodeBody.transformer.inj h
      have hconfig := congrArg TransformerFields.config hfields
      have hpins := congrArg TransformerFields.pinProducers hfields
      exact .transformer hconfig hpins

theorem Node.celltype_of_design {a b : Node} (h : b.design = a.design) : b.celltype = a.celltype := by
  have halike := alike_of_design h
  unfold Node.celltype
  generalize a.body = body at halike ⊢
  generalize b.body = body' at halike ⊢
  cases halike with
  | cell fields => rfl
  | transformer hconfig _ => simp only [hconfig]

theorem Node.isCell_of_design {a b : Node} (h : b.design = a.design) : b.isCell = a.isCell := by
  have halike := alike_of_design h
  unfold Node.isCell
  generalize a.body = body at halike ⊢
  generalize b.body = body' at halike ⊢
  cases halike with
  | cell fields => rfl
  | transformer _ _ => rfl

/-- A node of one graph and that of the other, or none in both. -/
inductive ContextGraph.Meets (g g' : ContextGraph) (q : NodePath) : Prop
  | none : g.nodes.lookup q = none → g'.nodes.lookup q = none → Meets g g' q
  | some {node node' : Node} : g.nodes.lookup q = some node → g'.nodes.lookup q = some node' →
      node'.design = node.design → Meets g g' q

namespace ContextGraph.Agrees

variable {seen : NodePath → Prop} {g g' : ContextGraph}

theorem meets (h : Agrees seen g g') (q : NodePath) : Meets g g' q := by
  have hq := h.design q
  cases hn : g.nodes.lookup q with
  | none =>
    rw [hn] at hq
    exact .none hn (Option.map_eq_none_iff.mp hq)
  | some node =>
    rw [hn] at hq
    obtain ⟨node', hn', hd⟩ := Option.map_eq_some_iff.mp hq
    exact .some hn hn' hd

theorem mem (h : Agrees seen g g') (q : NodePath) : q ∈ g'.nodes ↔ q ∈ g.nodes := by
  rw [← AList.lookup_isSome, ← AList.lookup_isSome]
  cases h.meets q with
  | none hn hn' => rw [hn, hn']
  | some hn hn' _ => rw [hn, hn']; rfl

theorem resolveExisting (h : Agrees seen g g') (viewPath : ViewPath) :
    g'.resolveExisting viewPath = g.resolveExisting viewPath := by
  unfold ContextGraph.resolveExisting
  congr 1
  funext q
  exact decide_eq_decide.mpr (h.mem q)

theorem nodeCelltype (h : Agrees seen g g') (q : NodePath) :
    g'.nodeCelltype q = g.nodeCelltype q := by
  unfold ContextGraph.nodeCelltype
  cases h.meets q with
  | none hn hn' => rw [hn, hn']
  | some hn hn' hd =>
    rw [hn, hn', Option.map_some, Option.map_some, Node.celltype_of_design hd]

theorem celltypeForPath (h : Agrees seen g g') (q : NodePath) (localPath : Path) :
    g'.celltypeForPath q localPath = g.celltypeForPath q localPath := by
  unfold ContextGraph.celltypeForPath
  rw [h.nodeCelltype]

theorem isCell (h : Agrees seen g g') (q : NodePath) :
    (g'.nodes.lookup q).map Node.isCell = (g.nodes.lookup q).map Node.isCell := by
  cases h.meets q with
  | none hn hn' => rw [hn, hn']
  | some hn hn' hd =>
    rw [hn, hn', Option.map_some, Option.map_some, Node.isCell_of_design hd]

/-! ### What an edge is -/

theorem edgeTargetCelltype (h : Agrees seen g g') (edge : Edge) :
    g'.edgeTargetCelltype edge = g.edgeTargetCelltype edge := by
  unfold ContextGraph.edgeTargetCelltype
  rw [h.resolveExisting]
  cases g.resolveExisting edge.target with
  | none => rfl
  | some r =>
    dsimp only
    cases h.meets r.1 with
    | none hn hn' => rw [hn, hn']
    | @some node node' hn hn' hd =>
      rw [hn, hn', Option.map_some, Option.map_some]
      have halike := Node.alike_of_design hd
      generalize node.body = body at halike ⊢
      generalize node'.body = body' at halike ⊢
      cases halike with
      | cell fields => rfl
      | transformer hconfig _ => simp only [hconfig]

theorem convertsIntoDeepSlot (h : Agrees seen g g') (edge : Edge) :
    g'.convertsIntoDeepSlot edge = g.convertsIntoDeepSlot edge := by
  unfold ContextGraph.convertsIntoDeepSlot
  rw [h.resolveExisting]
  cases g.resolveExisting edge.target with
  | none => rfl
  | some r =>
    dsimp only
    cases h.meets r.1 with
    | none hn hn' => rw [hn, hn']
    | @some node node' hn hn' hd =>
      rw [hn, hn', Option.map_some, Option.map_some]
      have halike := Node.alike_of_design hd
      generalize node.body = body at halike ⊢
      generalize node'.body = body' at halike ⊢
      cases halike with
      | cell fields => rfl
      | transformer _ _ => rfl

theorem looksThrough (h : Agrees seen g g') (edge : Edge) :
    g'.looksThrough edge = g.looksThrough edge := by
  unfold ContextGraph.looksThrough
  simp only [h.mem, h.convertsIntoDeepSlot, h.edgeTargetCelltype]

theorem readsAsOneLink (h : Agrees seen g g') (edge : Edge) :
    g'.readsAsOneLink edge = g.readsAsOneLink edge := by
  unfold ContextGraph.readsAsOneLink
  simp only [h.nodeCelltype]

theorem chainMiswiredFrom (h : Agrees seen g g') (chain : List Recipe) :
    ∀ source, g'.chainMiswiredFrom chain source = g.chainMiswiredFrom chain source := by
  induction chain with
  | nil => exact fun _ => rfl
  | cons recipe chain ih =>
    intro source
    unfold ContextGraph.chainMiswiredFrom
    simp only [ih, h.mem, h.nodeCelltype]

theorem edgeMiswiring (h : Agrees seen g g') (edge : Edge) :
    g'.edgeMiswiring edge = g.edgeMiswiring edge := by
  unfold ContextGraph.edgeMiswiring ContextGraph.chainMiswired
  simp only [h.looksThrough, h.readsAsOneLink, h.edgeTargetCelltype, h.nodeCelltype,
    h.chainMiswiredFrom]

theorem ownLink (h : Agrees seen g g') (edge : Edge) : g'.ownLink edge = g.ownLink edge := by
  unfold ContextGraph.ownLink
  rw [h.looksThrough]

theorem incomingFor (h : Agrees seen g g') (path : NodePath) :
    g'.incomingFor path = g.incomingFor path := by
  have hstep : g'.incomingStep path = g.incomingStep path := by
    funext result edge
    unfold ContextGraph.incomingStep
    rw [h.resolveExisting, h.ownLink]
  unfold ContextGraph.incomingFor
  rw [hstep, h.edges]

theorem sources (h : Agrees seen g g') (path : NodePath) : g'.sources path = g.sources path := by
  unfold ContextGraph.sources
  rw [h.incomingFor]
  simp only [h.resolveExisting]

theorem edgeInputCelltype (h : Agrees seen g g') (edge : Edge) :
    g'.edgeInputCelltype edge = g.edgeInputCelltype edge := by
  unfold ContextGraph.edgeInputCelltype
  simp only [h.resolveExisting, h.nodeCelltype, h.celltypeForPath]

theorem sourceTypeOf (h : Agrees seen g g') (edge : Edge) (q : NodePath) (localPath : Path) :
    SeamlessWorkflow.sourceTypeOf g' edge q localPath =
      SeamlessWorkflow.sourceTypeOf g edge q localPath := by
  unfold SeamlessWorkflow.sourceTypeOf
  rw [h.nodeCelltype, h.celltypeForPath]

theorem targetMiswired (h : Agrees seen g g') (env : Substrate) (edge : Edge) (q : NodePath)
    (sourceLocal : Path) {target target' : Node} (hd : target'.design = target.design)
    (targetLocal : Path) :
    SeamlessWorkflow.targetMiswired env g' edge q sourceLocal target' targetLocal =
      SeamlessWorkflow.targetMiswired env g edge q sourceLocal target targetLocal := by
  have halike := Node.alike_of_design hd
  unfold SeamlessWorkflow.targetMiswired
  rw [h.nodeCelltype, h.sourceTypeOf, h.celltypeForPath]
  generalize target.body = body at halike ⊢
  generalize target'.body = body' at halike ⊢
  cases halike with
  | cell fields => rfl
  | transformer hconfig _ => simp only [hconfig]

end ContextGraph.Agrees

theorem edgePolicy_of_design (edge : Edge) (sourceLocal : Path) {target target' : Node}
    (hd : target'.design = target.design) (targetLocal : Path) :
    edgePolicy edge sourceLocal target' targetLocal = edgePolicy edge sourceLocal target targetLocal := by
  have halike := Node.alike_of_design hd
  unfold edgePolicy edgeTargetScratch
  generalize target.body = body at halike ⊢
  generalize target'.body = body' at halike ⊢
  cases halike with
  | cell fields => rfl
  | transformer hconfig _ => simp only [hconfig]

/-! ## Evaluations -/

/-- The second evaluation is the first one, when the facts that this demanded are the same. -/
structure Evaluated.Stays {α : Type} (v v' : View) (x x' : Evaluated α) : Prop where
  eq : (∀ key ∈ x.used, v'.facts.lookup key = v.facts.lookup key) → x' = x

section Stays

variable {v v' : View} {α β : Type}

theorem Evaluated.Stays.refl (x : Evaluated α) : Stays v v' x x := ⟨fun _ => rfl⟩

theorem Evaluated.Stays.bind {x x' : Evaluated α} {f f' : α → Evaluated β} (hx : Stays v v' x x')
    (hf : ∀ a, Stays v v' (f a) (f' a)) : Stays v v' (x >>= f) (x' >>= f') := by
  refine ⟨fun hfacts => ?_⟩
  obtain rfl := hx.eq fun key hkey => hfacts key (List.mem_append_left _ hkey)
  have hvalue := (hf x'.value).eq fun key hkey => hfacts key (List.mem_append_right _ hkey)
  show (⟨_, _, _⟩ : Evaluated β) = ⟨_, _, _⟩
  rw [hvalue]

theorem stays_demand (key : FactKey) : Evaluated.Stays v v' (demand v key) (demand v' key) := by
  refine ⟨fun hfacts => ?_⟩
  have hkey := hfacts key List.mem_cons_self
  unfold demand
  rw [hkey]

variable (env : Substrate)

theorem stays_expressionStep (checksum : Checksum) (localPath : Path) (celltype targetType : Celltype)
    (policy : Policy) : Evaluated.Stays v v'
      (expressionStep env v checksum localPath celltype targetType policy)
      (expressionStep env v' checksum localPath celltype targetType policy) := by
  unfold expressionStep
  split
  · exact .refl _
  · exact stays_demand _

theorem stays_projection (checksum : Checksum) (localPath : Path) (celltype targetType : Celltype)
    (policy : Policy) : Evaluated.Stays v v'
      (projection env v checksum localPath celltype targetType policy)
      (projection env v' checksum localPath celltype targetType policy) := by
  unfold projection
  split
  · exact stays_expressionStep env ..
  · refine .bind (stays_expressionStep env ..) fun step => ?_
    split
    · exact stays_expressionStep env ..
    · exact .refl _

theorem stays_deepPrefix (edge : Edge) (sourceNode : NodePath) (before : List Celltype) :
    ∀ index current checksum, Evaluated.Stays v v'
      (deepPrefix env v edge sourceNode before index current checksum)
      (deepPrefix env v' edge sourceNode before index current checksum) := by
  induction before with
  | nil => exact fun _ _ _ => .refl _
  | cons converted before ih =>
    intro index current checksum
    unfold deepPrefix
    dsimp only
    split
    · refine .bind (stays_projection env ..) fun result => ?_
      split
      · exact .bind (.refl _) fun _ => ih ..
      · exact .refl _
    · refine .bind (.refl _) fun result => ?_
      split
      · exact .bind (.refl _) fun _ => ih ..
      · exact .refl _

theorem stays_evaluateDeepStep (edge : Edge) (sourceNode : NodePath) (checksum : Checksum)
    (rootType : Celltype) (localPath : Path) (deep : DeepSplit) (scratch materialize : Bool) :
    Evaluated.Stays v v'
      (evaluateDeepStep env v edge sourceNode checksum rootType localPath deep scratch materialize)
      (evaluateDeepStep env v' edge sourceNode checksum rootType localPath deep scratch
        materialize) := by
  unfold evaluateDeepStep
  refine .bind (stays_deepPrefix env ..) fun before => ?_
  split
  · refine .bind (stays_projection env ..) fun child => ?_
    split
    · exact .refl _
    · exact .refl _
  · exact .refl _

theorem stays_evaluateRuns (edge : Edge) (sourceNode : NodePath) (links : List Link)
    (chainOffset : Nat) (scratch materialize : Bool) (runs : List Run) :
    ∀ checksum, Evaluated.Stays v v'
      (evaluateRuns env v edge sourceNode links chainOffset scratch materialize runs checksum)
      (evaluateRuns env v' edge sourceNode links chainOffset scratch materialize runs checksum) := by
  induction runs with
  | nil => exact fun _ => .refl _
  | cons run runs ih =>
    intro checksum
    unfold evaluateRuns
    dsimp only
    split
    · exact .refl _
    · refine .bind (stays_projection env ..) fun result => ?_
      split
      · split
        · exact .refl _
        · exact .bind (.refl _) fun _ => ih _
      · exact .refl _

theorem stays_evaluateRecipe (edge : Edge) (sourceNode : NodePath) (rootChecksum : Checksum)
    (rootType : Celltype) (sourceLocal : Path) (steps : List ConversionStep) (chainOffset : Nat)
    (scratch materialize : Bool) : Evaluated.Stays v v'
      (evaluateRecipe env v edge sourceNode rootChecksum rootType sourceLocal steps chainOffset scratch
        materialize)
      (evaluateRecipe env v' edge sourceNode rootChecksum rootType sourceLocal steps chainOffset
        scratch materialize) := by
  unfold evaluateRecipe
  split
  · exact stays_evaluateRuns env ..
  · split
    · exact .bind (stays_projection env ..) fun _ => .refl _
    · exact .refl _

/-- An edge of a target that is derived alike: its source node, if it resolves, is seen. -/
theorem stays_evaluateSource (edge : Edge) {sourceNode : NodePath} (sourceLocal : Path)
    {source source' target target' : Node} (targetLocal : Path)
    (hcelltype : v'.graph.nodeCelltype sourceNode = v.graph.nodeCelltype sourceNode)
    (htype : sourceTypeOf v'.graph edge sourceNode sourceLocal =
      sourceTypeOf v.graph edge sourceNode sourceLocal)
    (hshown : source'.shown = source.shown) (htarget : target'.design = target.design) :
    Evaluated.Stays v v'
      (evaluateSource env v edge sourceNode sourceLocal source target targetLocal)
      (evaluateSource env v' edge sourceNode sourceLocal source' target' targetLocal) := by
  obtain ⟨hstate, hreason, hchecksum⟩ :
      source'.state = source.state ∧ source'.blockReason = source.blockReason ∧
        source'.currentChecksum = source.currentChecksum := by
    simpa [Node.shown] using hshown
  have hincomplete : incompleteSource source' = incompleteSource source := by
    unfold incompleteSource
    rw [hstate, hreason]
  unfold evaluateSource
  rw [hstate, hreason, hchecksum, hincomplete, hcelltype, htype,
    edgePolicy_of_design edge sourceLocal htarget]
  split
  · exact .refl _
  · split
    · exact .refl _
    · dsimp only
      split
      · exact .refl _
      · split
        · exact stays_evaluateRecipe env ..
        · refine .bind (stays_evaluateDeepStep env ..) fun child => ?_
          split
          · exact stays_evaluateRecipe env ..
          · exact .refl _

theorem stays_sourceState {seen : NodePath → Prop} (h : v.graph.Agrees seen v'.graph) (edge : Edge)
    (hseen : ∀ r, v.graph.resolveExisting edge.source = some r → seen r.1) :
    Evaluated.Stays v v' (sourceState env v edge) (sourceState env v' edge) := by
  unfold sourceState
  rw [h.edgeMiswiring, h.resolveExisting, h.resolveExisting]
  split
  · exact .refl _
  · exact .refl _
  · cases hs : v.graph.resolveExisting edge.source with
    | none => exact .refl _
    | some s =>
      cases ht : v.graph.resolveExisting edge.target with
      | none => exact .refl _
      | some t =>
        dsimp only
        cases h.meets s.1 with
        | none hn hn' =>
          rw [hn, hn']
          exact .refl _
        | some hn hn' hd =>
          cases h.meets t.1 with
          | none hm hm' =>
            rw [hn, hn', hm, hm']
            exact .refl _
          | some hm hm' hd' =>
            rw [hn, hn', hm, hm']
            dsimp only
            rw [h.targetMiswired env edge s.1 s.2 hd']
            split
            · exact .refl _
            · have hshown := h.shown s.1 (hseen s hs)
              rw [hn, hn'] at hshown
              exact stays_evaluateSource env edge s.2 t.2 (h.nodeCelltype s.1)
                (h.sourceTypeOf edge s.1 s.2) (Option.some.inj hshown) hd'

end Stays

/-! ## Cells -/

/-- The nodes that are seen are closed upstream, and hold the sources of a node. -/
structure ContextGraph.Sees (g : ContextGraph) (seen : NodePath → Prop) (path : NodePath) : Prop where
  sources : ∀ source ∈ g.sources path, seen source
  closed : ∀ q, seen q → ∀ source ∈ g.sources q, seen source

theorem ContextGraph.mem_sources {g : ContextGraph} {path : NodePath} {entry : Path × Edge}
    (hentry : entry ∈ g.incomingFor path) {r : NodePath × Path}
    (hr : g.resolveExisting entry.2.source = some r) : r.1 ∈ g.sources path :=
  List.mem_filterMap.mpr ⟨entry, hentry, by rw [hr]; rfl⟩

theorem mem_of_lookup {α β : Type} [BEq α] [LawfulBEq α] {l : List (α × β)} {a : α} {b : β}
    (h : l.lookup a = some b) : (a, b) ∈ l := by
  obtain ⟨before, after, rfl, -⟩ := List.lookup_eq_some_iff.mp h
  simp

section Cells

variable {v v' : View} {seen : NodePath → Prop} {path : NodePath}

theorem fusedStep_of_agrees {g g' : ContextGraph} (h : g.Agrees seen g') (q : NodePath)
    (celltype : Celltype) : g'.fusedStep q celltype = g.fusedStep q celltype := by
  unfold ContextGraph.fusedStep
  rw [h.incomingFor]
  split
  · rename_i edge hincoming
    rw [h.resolveExisting]
    cases g.resolveExisting edge.source with
    | none => rfl
    | some r =>
      dsimp only
      have hcell := h.isCell r.1
      cases h.meets r.1 with
      | none hn hn' => rw [hn, hn']
      | some hn hn' _ =>
        rw [hn, hn'] at hcell ⊢
        dsimp only
        rw [Option.some.inj hcell, h.celltypeForPath, h.nodeCelltype]
  · rfl

/-- A step upstream leads to a source. -/
theorem source_of_fusedStep {g : ContextGraph} {q : NodePath} {celltype : Celltype}
    {r : NodePath × Path} (h : g.fusedStep q celltype = some r) : r.1 ∈ g.sources q := by
  unfold ContextGraph.fusedStep at h
  split at h
  · rename_i edge hincoming
    have hentry : (([] : Path), edge) ∈ g.incomingFor q := by
      rw [hincoming]
      exact List.mem_singleton_self _
    split at h
    · cases h
    · cases hr : g.resolveExisting edge.source with
      | none =>
        rw [hr] at h
        cases h
      | some s =>
        rw [hr] at h
        dsimp only at h
        split at h
        · cases h
        · split at h
          · cases h
          · split at h
            · cases h
            · split at h
              · cases h
              · obtain rfl := Option.some.inj h
                exact ContextGraph.mem_sources hentry hr
  · cases h

theorem fusedFrom_of_agrees {g g' : ContextGraph} (h : g.Agrees seen g')
    (hclosed : ∀ q, seen q → ∀ source ∈ g.sources q, seen source) (fuel : Nat) :
    ∀ visited q localPath root, seen q →
      g'.fusedFrom fuel visited q localPath root = g.fusedFrom fuel visited q localPath root := by
  induction fuel with
  | zero => exact fun _ _ _ _ _ => rfl
  | succ fuel ih =>
    intro visited q localPath root hq
    unfold ContextGraph.fusedFrom
    split
    · rfl
    · have hcell := h.isCell q
      have hshown := h.shown q hq
      cases h.meets q with
      | none hn hn' => rw [hn, hn']
      | @some node node' hn hn' _ =>
        rw [hn, hn'] at hcell hshown ⊢
        have hchecksum : node'.currentChecksum = node.currentChecksum :=
          congrArg (fun shown => shown.2.2) (Option.some.inj hshown)
        dsimp only
        rw [Option.some.inj hcell, hchecksum, h.nodeCelltype, fusedStep_of_agrees h]
        split
        · split
          · rfl
          · rename_i hstep
            exact ih _ _ _ _ (hclosed q hq _ (source_of_fusedStep hstep))
        · rfl

theorem fusedProjectionSource_of_agrees {g g' : ContextGraph} (h : g.Agrees seen g')
    (hclosed : ∀ q, seen q → ∀ source ∈ g.sources q, seen source) {q : NodePath} (hq : seen q)
    (localPath : Path) :
    g'.fusedProjectionSource q localPath = g.fusedProjectionSource q localPath := by
  have hkeys : g'.nodes.keys.length = g.nodes.keys.length := by
    refine (List.perm_ext_iff_of_nodup g'.nodes.nodupKeys g.nodes.nodupKeys |>.mpr fun p => ?_).length_eq
    exact AList.mem_keys.symm.trans ((h.mem p).trans AList.mem_keys)
  unfold ContextGraph.fusedProjectionSource
  rw [hkeys]
  exact fusedFrom_of_agrees h hclosed _ _ _ _ _ hq

variable (env : Substrate)

theorem stays_directOutcome (h : v.graph.Agrees seen v'.graph) (hsees : v.graph.Sees seen path)
    (config : CellConfig) (edge : Edge) {sourcePath : NodePath} (hsource : seen sourcePath)
    (sourceLocal : Path) (sourceChecksum : Checksum) : Evaluated.Stays v v'
      (directOutcome env v config edge sourcePath sourceLocal sourceChecksum)
      (directOutcome env v' config edge sourcePath sourceLocal sourceChecksum) := by
  unfold directOutcome
  rw [h.nodeCelltype, h.celltypeForPath, fusedProjectionSource_of_agrees h hsees.closed hsource]
  split
  · exact .refl _
  · dsimp only
    split
    · refine .bind (stays_projection env ..) fun child => ?_
      split
      · split
        · exact .bind (.refl _) fun _ => .bind (stays_projection env ..) fun _ => .refl _
        · exact .bind (stays_projection env ..) fun _ => .refl _
      · exact .bind (stays_projection env ..) fun _ => .refl _
    · exact .bind (stays_projection env ..) fun _ => .refl _

theorem stays_rootEdgeOutcome (h : v.graph.Agrees seen v'.graph) (config : CellConfig) (edge : Edge)
    (hseen : ∀ r, v.graph.resolveExisting edge.source = some r → seen r.1) (sourcePath : NodePath)
    (sourceLocal : Path) : Evaluated.Stays v v'
      (rootEdgeOutcome env v config edge sourcePath sourceLocal)
      (rootEdgeOutcome env v' config edge sourcePath sourceLocal) := by
  unfold rootEdgeOutcome
  refine .bind (stays_sourceState env h edge hseen) fun source => ?_
  rw [h.nodeCelltype]
  split
  · dsimp only
    split
    · split
      · exact .bind (stays_projection env ..) fun _ => .refl _
      · exact .refl _
    · exact .refl _
  · exact .refl _
  · exact .refl _
  · exact .refl _

theorem stays_joinSlot (h : v.graph.Agrees seen v'.graph) (config : CellConfig) (localPath : Path)
    (edge : Edge) (hseen : ∀ r, v.graph.resolveExisting edge.source = some r → seen r.1) :
    Evaluated.Stays v v' (joinSlot env v config localPath edge)
      (joinSlot env v' config localPath edge) := by
  unfold joinSlot
  refine .bind (stays_sourceState env h edge hseen) fun source => ?_
  rw [h.resolveExisting, show v'.graph.nodeCelltype = v.graph.nodeCelltype from
    funext h.nodeCelltype]
  split
  · dsimp only
    split
    · refine .bind (stays_projection env ..) fun result => ?_
      split <;> exact .refl _
    · exact .refl _
  · exact .refl _

theorem stays_joinSlots (h : v.graph.Agrees seen v'.graph) (config : CellConfig)
    (incoming : List (Path × Edge))
    (hseen : ∀ entry ∈ incoming, ∀ r, v.graph.resolveExisting entry.2.source = some r → seen r.1) :
    Evaluated.Stays v v' (joinSlots env v config incoming) (joinSlots env v' config incoming) := by
  induction incoming with
  | nil => exact .refl _
  | cons entry incoming ih =>
    have hrest := ih fun e he => hseen e (List.mem_cons_of_mem _ he)
    unfold joinSlots
    refine .bind (stays_joinSlot env h config entry.1 entry.2 (hseen entry List.mem_cons_self))
      fun slot => ?_
    split
    · exact .refl _
    · exact .bind hrest fun _ => .refl _

theorem stays_joinRoot (config : CellConfig) (producer : Option ConstantProducer) :
    Evaluated.Stays v v' (joinRoot env v config producer) (joinRoot env v' config producer) := by
  unfold joinRoot
  split
  · exact .refl _
  · split
    · exact .refl _
    · refine .bind (stays_projection env ..) fun result => ?_
      split <;> exact .refl _

theorem stays_celljoinOutcome (config : CellConfig) (root : Option Checksum)
    (members : List (Component × Checksum)) : Evaluated.Stays v v'
      (celljoinOutcome env v config root members) (celljoinOutcome env v' config root members) := by
  unfold celljoinOutcome
  dsimp only
  split
  · exact .refl _
  · exact .bind (stays_demand _) fun _ => .refl _

theorem stays_joinOutcome (h : v.graph.Agrees seen v'.graph) (fields : CellFields)
    (incoming : List (Path × Edge))
    (hseen : ∀ entry ∈ incoming, ∀ r, v.graph.resolveExisting entry.2.source = some r → seen r.1) :
    Evaluated.Stays v v' (joinOutcome env v fields incoming) (joinOutcome env v' fields incoming) := by
  unfold joinOutcome
  refine .bind (stays_joinSlots env h fields.config incoming hseen) fun slots => ?_
  split
  · exact .refl _
  · dsimp only
    split
    · exact .refl _
    · refine .bind (stays_joinRoot env ..) fun root => ?_
      split
      · exact .refl _
      · exact stays_celljoinOutcome env ..

theorem stays_ownOutcome (fields : CellFields) :
    Evaluated.Stays v v' (ownOutcome env v fields) (ownOutcome env v' fields) := by
  unfold ownOutcome
  split
  · exact .refl _
  · split
    · exact .refl _
    · split
      · exact .bind (stays_projection env ..) fun _ => .refl _
      · exact .refl _

theorem stays_cellOutcome (h : v.graph.Agrees seen v'.graph) (hsees : v.graph.Sees seen path)
    (senseErrors : List Error) (fields : CellFields) : Evaluated.Stays v v'
      (cellOutcome env v senseErrors path fields) (cellOutcome env v' senseErrors path fields) := by
  have hseen : ∀ entry ∈ v.graph.incomingFor path, ∀ r,
      v.graph.resolveExisting entry.2.source = some r → seen r.1 := fun entry he r hr =>
    hsees.sources _ (ContextGraph.mem_sources he hr)
  unfold cellOutcome
  split
  · exact .refl _
  · dsimp only
    rw [h.incomingFor]
    split
    · rename_i edge hedge
      have hentry := mem_of_lookup hedge
      rw [h.resolveExisting]
      cases hr : v.graph.resolveExisting edge.source with
      | none => exact .refl _
      | some r =>
        have hsource : seen r.1 := hseen _ hentry r hr
        have hrest := fun r => hseen _ hentry r
        have hshown := congrArg (Option.map fun shown => (shown.1, shown.2.2)) (h.shown r.1 hsource)
        rw [Option.map_map, Option.map_map] at hshown
        dsimp only
        rw [show (v'.graph.nodes.lookup r.1).map (fun s => (s.state, s.currentChecksum)) =
          (v.graph.nodes.lookup r.1).map fun s => (s.state, s.currentChecksum) from hshown,
          h.edgeMiswiring]
        generalize (v.graph.nodes.lookup r.1).map (fun s => (s.state, s.currentChecksum)) = result
        split
        · split
          · exact stays_directOutcome env h hsees fields.config edge hsource ..
          · exact stays_rootEdgeOutcome env h fields.config edge hrest ..
        · exact stays_rootEdgeOutcome env h fields.config edge hrest ..
    · split
      · exact stays_ownOutcome env fields
      · exact stays_joinOutcome env h fields _ hseen

end Cells

/-! ## Transformers -/

section Transformers

variable {v v' : View} {seen : NodePath → Prop} {path : NodePath} (env : Substrate)

/-- The sources of the edges into a node are seen. -/
def View.SeesInto (v : View) (seen : NodePath → Prop) (incoming : List (Path × Edge)) : Prop :=
  ∀ entry ∈ incoming, ∀ r, v.graph.resolveExisting entry.2.source = some r → seen r.1

theorem stays_codeReading (h : v.graph.Agrees seen v'.graph) (fields : TransformerFields)
    {incoming : List (Path × Edge)} (hseen : v.SeesInto seen incoming) : Evaluated.Stays v v'
      (codeReading env v fields incoming) (codeReading env v' fields incoming) := by
  unfold codeReading
  split
  · rename_i edge hedge
    have hentry := mem_of_lookup hedge
    refine .bind (stays_sourceState env h edge (hseen _ hentry)) fun source => ?_
    split <;> exact .refl _
  · split <;> exact .refl _

theorem stays_pinInput (h : v.graph.Agrees seen v'.graph) (fields : TransformerFields)
    {incoming : List (Path × Edge)} (hseen : v.SeesInto seen incoming) (pin : String) :
    Evaluated.Stays v v' (pinInput env v fields incoming pin)
      (pinInput env v' fields incoming pin) := by
  unfold pinInput
  split
  · rename_i edge hedge
    have hentry := mem_of_lookup hedge
    refine .bind (stays_sourceState env h edge (hseen _ hentry)) fun source => ?_
    rw [h.edgeInputCelltype]
    split <;> exact .refl _
  · split <;> exact .refl _

theorem stays_pinReading (h : v.graph.Agrees seen v'.graph) (fields : TransformerFields)
    {incoming : List (Path × Edge)} (hseen : v.SeesInto seen incoming) (pin : String) :
    Evaluated.Stays v v' (pinReading env v fields incoming pin)
      (pinReading env v' fields incoming pin) := by
  unfold pinReading
  dsimp only
  refine .bind (stays_pinInput env h fields hseen pin) fun read => ?_
  split
  · exact .refl _
  · split
    · split <;> exact .refl _
    · split
      · exact .refl _
      · split
        · exact .refl _
        · refine .bind (stays_projection env ..) fun result => ?_
          split <;> exact .refl _

theorem stays_pinReadings (h : v.graph.Agrees seen v'.graph) (fields : TransformerFields)
    {incoming : List (Path × Edge)} (hseen : v.SeesInto seen incoming) (pins : List String) :
    Evaluated.Stays v v' (pinReadings env v fields incoming pins)
      (pinReadings env v' fields incoming pins) := by
  induction pins with
  | nil => exact .refl _
  | cons pin pins ih =>
    unfold pinReadings
    refine .bind (stays_pinReading env h fields hseen pin) fun reading => ?_
    split
    · exact .refl _
    · exact .bind ih fun _ => .refl _

theorem stays_transformerReading (h : v.graph.Agrees seen v'.graph) (hsees : v.graph.Sees seen path)
    (fields : TransformerFields) : Evaluated.Stays v v'
      (transformerReading env v path fields) (transformerReading env v' path fields) := by
  have hseen : v.SeesInto seen (v.graph.incomingFor path) := fun entry he r hr =>
    hsees.sources _ (ContextGraph.mem_sources he hr)
  unfold transformerReading
  split
  · exact .refl _
  · dsimp only
    rw [h.incomingFor]
    refine .bind (stays_codeReading env h fields hseen) fun code => ?_
    refine .bind (stays_pinReadings env h fields hseen _) fun pins => ?_
    split
    · exact .refl _
    · split <;> exact .refl _

end Transformers

end SeamlessWorkflow
