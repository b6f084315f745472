import SeamlessWorkflow.Proofs.RootEdges

/-!
# Cell builders

A builder gives a cell one root input: a stored value, a root expression, or an edge from a hidden
cell that takes the rest of the builder.
-/

namespace SeamlessWorkflow

open Program Relation

/-! ## Programs that keep the root inputs -/

section Same

variable {env : Substrate} {start : Ctx}

theorem sameRoots_updateNode (path : NodePath) {f : Node → Node}
    (hf : ∀ node, (f node).cellFields = node.cellFields) (ctx : Ctx) :
    SameRoots ctx (ctx.modifyGraph fun g => g.updateNode path f) := by
  have hlookup : ∀ q, (ctx.graph.updateNode path f).nodes.lookup q =
      if q = path then (ctx.graph.nodes.lookup path).map f else ctx.graph.nodes.lookup q :=
    fun q => ContextGraph.lookup_updateNode _ _ _ _
  refine ⟨by simp [Ctx.modifyGraph], fun q => ?_, fun q => ?_⟩
  · rw [← AList.lookup_isSome, ← AList.lookup_isSome]
    show ((ctx.graph.updateNode path f).nodes.lookup q).isSome = true ↔ _
    rw [hlookup]
    by_cases hq : q = path
    · rw [if_pos hq, hq, Option.isSome_map]
    · rw [if_neg hq]
  · unfold Ctx.cell? Ctx.node?
    show ((ctx.graph.updateNode path f).nodes.lookup q).bind _ = _
    rw [hlookup]
    by_cases hq : q = path
    · rw [if_pos hq, hq]
      cases ctx.graph.nodes.lookup path with
      | none => rfl
      | some node => exact hf node
    · rw [if_neg hq]

/-- The program keeps the root inputs of all cells. -/
abbrev KeepsInputs (start : Ctx) {α : Type} (program : M α) : Prop := Keeps (SameRoots start) program

theorem keepsInputs_modify {f : Ctx → Ctx} (h : ∀ ctx, SameRoots ctx (f ctx)) :
    KeepsInputs start (modify f : M Unit) := Keeps.modify fun ctx hc => hc.trans (h ctx)

theorem keepsInputs_modifyNode (path : NodePath) {f : Node → Node}
    (hf : ∀ node, (f node).cellFields = node.cellFields) : KeepsInputs start (modifyNode path f) :=
  keepsInputs_modify (sameRoots_updateNode path hf)

theorem addsNone_of_keepsInputs {α : Type} {program : M α} (h : ∀ start, KeepsInputs start program) :
    AddsNone start program := by
  intro ctx hc
  have hrun := h ctx ctx (.refl ctx)
  cases hr : program ctx with
  | ok a ctx' => rw [hr] at hrun; exact hc.trans hrun.fewer
  | error e ctx' => rw [hr] at hrun; exact hc.trans hrun.fewer

theorem keepsInputs_deriveAll : KeepsInputs start (deriveAll env) :=
  deriveAll_keeps (fun _ _ hd h => h.trans (.of_durable hd)) env

theorem sameRoots_detach (path : NodePath) (driver : String) (ctx : Ctx) :
    SameRoots ctx (ctx.detach path driver) := by
  unfold Ctx.detach
  split
  · exact .refl ctx
  · refine SameRoots.trans (b := { ctx with mountSessions := ctx.mountSessions.erase (path, driver) })
      (.of_graph rfl) (sameRoots_updateNode path (fun node => ?_) _)
    split
    · rfl
    · split <;> rfl

theorem sameRoots_foldl {α : Type} {f : Ctx → α → Ctx} (h : ∀ ctx a, SameRoots ctx (f ctx a))
    (as : List α) (ctx : Ctx) : SameRoots ctx (as.foldl f ctx) := by
  induction as generalizing ctx with
  | nil => exact .refl ctx
  | cons a as ih => exact (h ctx a).trans (ih (f ctx a))

theorem sameRoots_detachAll (path : NodePath) (ctx : Ctx) : SameRoots ctx (ctx.detachAll path) :=
  sameRoots_foldl (f := fun ctx (key : NodePath × String) => ctx.detach path key.2)
    (fun ctx key => sameRoots_detach path key.2 ctx) _ ctx

theorem keepsInputs_detachForBuilder (path : NodePath) (celltype : Celltype) :
    KeepsInputs start (detachForBuilder path celltype) := by
  refine Keeps.bind (keeps_nodeAt path) fun node => Keeps.bind Keeps.get fun ctx => keeps_onlyIf ?_
  refine Keeps.bind (keeps_refuseIf _ _ _) fun _ => ?_
  refine Keeps.bind (keepsInputs_modify (sameRoots_detachAll path)) fun _ => ?_
  refine keepsInputs_modifyNode path ?_
  exact fun _ => rfl

theorem keepsInputs_mountDetach (path : NodePath) (driver : String) :
    KeepsInputs start (mountDetach env path driver) := by
  refine Keeps.bind Keeps.get fun ctx => keeps_onlyIf ?_
  exact Keeps.bind (keepsInputs_modify (sameRoots_detach path driver)) fun _ => keepsInputs_deriveAll

theorem keepsInputs_afterTurn : KeepsInputs start (afterTurn env) := by
  refine Keeps.bind Keeps.get fun ctx => keeps_onlyIf ?_
  refine Keeps.bind Keeps.get fun ctx => Keeps.forM fun key _ => ?_
  split
  · exact Keeps.pure
  · exact keepsInputs_mountDetach _ _

end Same

/-! ## New cells -/

/-- A blank cell has been put at a free path. -/
structure Created (start : Ctx) (path : NodePath) (config : CellConfig) (ctx : Ctx) : Prop where
  new : path ∉ start.graph.nodes
  edges : ctx.graph.edges = start.graph.edges
  mem : ∀ q, q ∈ ctx.graph.nodes ↔ q ∈ start.graph.nodes ∨ q = path
  cells : ∀ q, ctx.cell? q = if q = path then some { config := config } else start.cell? q

/-- Does a path start with a name that a hidden cell may get? -/
def startsHidden : ViewPath → Bool
  | .key name :: _ => "cell".toList.isPrefixOf name.toList
  | _ => false

/-- No edge that ends at no node ends where a hidden cell may be put. -/
def Ctx.HiddenFree (ctx : Ctx) : Prop :=
  ∀ edge ∈ ctx.graph.edges, (ctx.graph.resolveExisting edge.target).isSome = true ∨
    startsHidden edge.target = false

instance (ctx : Ctx) : Decidable ctx.HiddenFree := by
  unfold Ctx.HiddenFree
  infer_instance

section Creation

variable {env : Substrate} {start ctx : Ctx} {path : NodePath} {config : CellConfig}

theorem createCell_result (path : NodePath) (config : CellConfig) :
    Triple (· = start) (createCell path config) (fun _ => Created start path config) (· = start) := by
  refine Triple.get_bind fun ctx => ?_
  refine Triple.inspect (inspects_refuseIf _ _ _) (fun _ hc => hc.2) fun _ => ?_
  refine Triple.modify fun ctx' hc => ?_
  obtain ⟨⟨rfl, rfl⟩, hnew⟩ := hc
  set node : Node := { ident := ctx'.nextIdent, body := .cell { config := config } } with hnode
  have hlookup := node?_putNode path node ctx'
  refine ⟨hnew, rfl, fun q => ?_, fun q => ?_⟩
  · show q ∈ ctx'.graph.nodes.insert path node ↔ _
    rw [AList.mem_insert]
    exact Or.comm
  · show ((ctx'.modifyGraph fun g => g.putNode path node).node? q).bind _ = _
    rw [hlookup]
    by_cases hq : q = path
    · rw [if_pos hq, if_pos hq]
      rfl
    · rw [if_neg hq, if_neg hq]
      rfl

namespace Created

theorem cell?_isSome (h : Created start path config ctx) : (ctx.cell? path).isSome = true := by
  rw [h.cells, if_pos rfl]
  rfl

theorem unrooted (h : Created start path config ctx) : ctx.Unrooted path := by
  have hcell : ctx.cell? path = some { config := config } := by rw [h.cells, if_pos rfl]
  exact ⟨Ctx.expressionAt_of_cell? hcell, Ctx.producerAt_of_cell? hcell⟩

theorem fewer (h : Created start path config ctx) : FewerRoots start ctx := by
  refine ⟨by rw [h.edges], fun q => ?_, fun q => ?_⟩
  · by_cases hq : q = path
    · exact Or.inl (hq ▸ h.unrooted.expression)
    · refine Or.inr ?_
      unfold Ctx.expressionAt
      rw [h.cells, if_neg hq]
  · by_cases hq : q = path
    · exact Or.inl (hq ▸ h.unrooted.producer)
    · refine Or.inr ?_
      unfold Ctx.producerAt
      rw [h.cells, if_neg hq]

/-- A new name of one component changes no end of an edge that has a node already. -/
theorem resolves {name : String} (h : Created start [.key name] config ctx) {viewPath : ViewPath}
    {n : NodePath} {l : Path} (hr : start.graph.resolveExisting viewPath = some (n, l)) :
    ctx.graph.resolveExisting viewPath = some (n, l) := by
  have hreads := ContextGraph.resolveExisting_eq_some.mp hr
  refine ContextGraph.resolveExisting_eq_some.mpr (hreads.of_accept (k := [.key name])
    (fun m => ?_) fun _ => ?_)
  · rw [ContextGraph.stands_wiring, ContextGraph.stands_wiring, decide_eq_true_iff,
      decide_eq_true_iff]
    exact h.mem m
  · exact List.length_pos_iff.mpr hreads.nonempty

theorem hiddenFree (h : Created start path config ctx) (hh : start.HiddenFree) :
    ctx.HiddenFree := by
  intro edge he
  rw [h.edges] at he
  refine (hh edge he).imp_left fun hr => ?_
  obtain ⟨⟨n, l⟩, hr⟩ := Option.isSome_iff_exists.mp hr
  have hreads := ContextGraph.resolveExisting_eq_some.mp hr
  have hstands : ctx.graph.wiring.stands n = true := by
    rw [ContextGraph.stands_wiring]
    exact decide_eq_true ((h.mem n).mpr (Or.inl (ContextGraph.mem_of_resolves hreads)))
  obtain ⟨n', l', hr'⟩ := LongestPrefix.exists_reads hstands hreads.nonempty ⟨l, hreads.flat⟩
  rw [ContextGraph.resolveExisting_eq_some.mpr hr']
  rfl

/-- No edge ends at a new hidden cell. -/
theorem free {i : Nat} (h : Created start [.key ("cell" ++ toString i)] config ctx)
    (hh : start.HiddenFree) : ∀ edge ∈ ctx.graph.edges,
      (ctx.graph.resolveExisting edge.target).map Prod.fst ≠
        some [.key ("cell" ++ toString i)] := by
  intro edge he hinto
  rw [h.edges] at he
  rcases hh edge he with hr | hr
  · obtain ⟨⟨n, l⟩, hr⟩ := Option.isSome_iff_exists.mp hr
    rw [h.resolves hr] at hinto
    obtain rfl := Option.some.inj hinto
    exact h.new (ContextGraph.mem_of_resolves (ContextGraph.resolveExisting_eq_some.mp hr))
  · cases ht : ctx.graph.resolveExisting edge.target with
    | none => rw [ht] at hinto; cases hinto
    | some r =>
      obtain ⟨n, l⟩ := r
      rw [ht] at hinto
      obtain rfl := Option.some.inj hinto
      have hflat := (ContextGraph.resolveExisting_eq_some.mp ht).flat
      rw [← hflat] at hr
      simp [startsHidden, String.toList_append] at hr

end Created

end Creation

/-! ## What a builder makes of a cell -/

/-- The derivation of a cell uses this root input and no other. -/
structure Ctx.Uses (env : Substrate) (ctx : Ctx) (path : NodePath) (input : RootInput) : Prop where
  takes : ctx.Takes path input
  derives : ∀ fields, ctx.cell? path = some fields →
    cellOutcome env ctx.view [] path fields = rootOutcome env ctx.view fields.config input

theorem Ctx.Takes.uses {ctx : Ctx} {path : NodePath} {input : RootInput} (h : ctx.Takes path input)
    (env : Substrate) : ctx.Uses env path input := ⟨h, fun _ hf => h.derives hf env⟩

/-- A cell uses the input of a builder, the hidden cells of the builder included. -/
def Ctx.Reads (env : Substrate) (ctx : Ctx) (fresh : NodePath → Prop) :
    List CellRecipe → NodePath → CellRecipe → InputRef → Prop
  | [], path, _, .unset => ctx.Uses env path .nothing
  | [], path, recipe, .checksum c => ctx.Uses env path
      (.producer ((⟨c, recipe.inputCelltype.getD recipe.celltype⟩ : ConstantProducer).canonical env))
  | [], path, _, .rootExpression expression => ctx.Uses env path (.expression expression)
  | [], path, _, .endpoint ep => ∃ edge, ep.recipe.Describes ep.place ⟨path, []⟩ edge ∧
      ctx.Uses env path (.edge edge)
  | [], path, _, .expression first links root => ∃ source edge, fresh source ∧
      (expressionRecipe (expressionSteps first links).2.1 (expressionSteps first links).2.2).Describes
        ⟨source, (expressionSteps first links).1⟩ ⟨path, []⟩ edge ∧
      ctx.Uses env path (.edge edge) ∧
      ctx.Uses env source
        (.producer ((⟨root, first.inputCelltype⟩ : ConstantProducer).canonical env))
  | next :: rest, path, _, input => ∃ source edge, fresh source ∧
      ({} : EdgeRecipe).Describes ⟨source, []⟩ ⟨path, []⟩ edge ∧ ctx.Uses env path (.edge edge) ∧
      Reads env ctx fresh rest source next input

/-- What keeps the inputs of the cells that matter keeps what a builder has made. -/
theorem Ctx.Reads.transport {env : Substrate} {a b : Ctx} {fresh fresh' P : NodePath → Prop}
    (hfresh : ∀ q, fresh q → fresh' q ∧ P q)
    (htakes : ∀ q input, P q → a.Takes q input → b.Takes q input) :
    ∀ {upstream : List CellRecipe} {path : NodePath} {recipe : CellRecipe} {input : InputRef}, P path →
      a.Reads env fresh upstream path recipe input → b.Reads env fresh' upstream path recipe input := by
  have huses : ∀ q input, P q → a.Uses env q input → b.Uses env q input :=
    fun q input hq h => (htakes q input hq h.takes).uses env
  intro upstream
  induction upstream with
  | nil =>
    intro path recipe input hp h
    cases input with
    | unset => exact huses _ _ hp h
    | checksum c => exact huses _ _ hp h
    | rootExpression expression => exact huses _ _ hp h
    | endpoint ep =>
      obtain ⟨edge, hd, h⟩ := h
      exact ⟨edge, hd, huses _ _ hp h⟩
    | expression first links root =>
      obtain ⟨source, edge, hf, hd, h, hs⟩ := h
      exact ⟨source, edge, (hfresh _ hf).1, hd, huses _ _ hp h, huses _ _ (hfresh _ hf).2 hs⟩
  | cons next rest ih =>
    intro path recipe input hp h
    obtain ⟨source, edge, hf, hd, h, hs⟩ := h
    exact ⟨source, edge, (hfresh _ hf).1, hd, huses _ _ hp h, ih (hfresh _ hf).2 hs⟩

/-- Nodes are added, and of the old cells the one at a path is changed only. -/
structure Grown (path : NodePath) (a b : Ctx) : Prop where
  nodes : ∀ q ∈ a.graph.nodes, q ∈ b.graph.nodes
  cells : ∀ q ∈ a.graph.nodes, q ≠ path → b.cell? q = a.cell? q

namespace Grown

variable {path q : NodePath} {a b c : Ctx}

theorem trans (h : Grown path a b) (h' : Grown q b c) (hq : q ∉ a.graph.nodes ∨ q = path) :
    Grown path a c := by
  refine ⟨fun r hr => h'.nodes r (h.nodes r hr), fun r hr hne => ?_⟩
  rw [h'.cells r (h.nodes r hr) ?_, h.cells r hr hne]
  rintro rfl
  rcases hq with hq | rfl
  · exact hq hr
  · exact hne rfl

theorem of_new (h : Grown q a b) (hq : q ∉ a.graph.nodes) : Grown path a b := by
  refine ⟨h.nodes, fun r hr _ => h.cells r hr ?_⟩
  rintro rfl
  exact hq hr

theorem of_only (h : OnlyAt path a b) : Grown path a b :=
  ⟨fun q hq => (h.mem q).mpr hq, fun q _ hne => h.cells q hne⟩

theorem of_created {config : CellConfig} (h : Created a path config b) : Grown path a b :=
  ⟨fun q hq => (h.mem q).mpr (Or.inl hq), fun q _ hne => by rw [h.cells, if_neg hne]⟩

theorem cell?_isSome (h : Grown path a b) (hq : (a.cell? q).isSome = true) (hne : q ≠ path) :
    (b.cell? q).isSome = true := by
  rw [h.cells q (Ctx.mem_of_cell? hq) hne]
  exact hq

theorem unrooted (h : Grown path a b) (hq : q ∈ a.graph.nodes) (hne : q ≠ path)
    (hu : a.Unrooted q) : b.Unrooted q := by
  have hcell := h.cells q hq hne
  refine ⟨?_, ?_⟩
  · rw [← hu.expression]
    unfold Ctx.expressionAt
    rw [hcell]
  · rw [← hu.producer]
    unfold Ctx.producerAt
    rw [hcell]

end Grown

theorem RootInput.alone (input : RootInput) :
    input.rootExpression = none ∨ input.rootProducer = none := by
  cases input with
  | expression e => exact Or.inr rfl
  | _ => exact Or.inl rfl

section Install

variable {start ctx : Ctx} {path : NodePath} {f : CellFields → CellFields}

/-- An edge that ends at no part of a node does not have the path of the node as its target. -/
theorem target_ne_of_free {edge : Edge} (hp : path ∈ start.graph.nodes) (hnamed : edge.target ≠ [])
    (hfree : (start.graph.resolveExisting edge.target).map Prod.fst ≠ some path) :
    edge.target ≠ path := by
  rintro rfl
  rw [resolveExisting_self hp hnamed] at hfree
  exact hfree rfl

/-- A write of an input other than an edge, once no edge ends at the cell. -/
theorem RootSet.written {edges : List Edge} (h : RootSet start path f edges ctx) (ho : start.OneRoot)
    (hsub : edges.Sublist start.graph.edges)
    (hfree : ∀ edge ∈ edges, (start.graph.resolveExisting edge.target).map Prod.fst ≠ some path)
    {fields : CellFields} (hcell : start.cell? path = some fields) (input : RootInput)
    (hnone : input.edges = []) (hexpression : (f fields).rootExpression = input.rootExpression)
    (hproducer : (f fields).rootProducer = input.rootProducer) :
    ctx.OneRoot ∧ ctx.Takes path input := by
  have hmem : path ∈ start.graph.nodes := Ctx.mem_of_cell? (by rw [hcell]; rfl)
  refine ⟨h.oneRoot ho hsub (fun fields' hf => ?_) fun edge he => ?_, ?_⟩
  · obtain rfl := Option.some.inj (hcell.symm.trans hf)
    rw [hexpression, hproducer]
    exact input.alone
  · exact target_ne_of_free hmem (ho.named edge (hsub.subset he)) (hfree edge he)
  · exact h.takes hcell hnone hfree hexpression hproducer

/-- A change of the other fields of a cell. -/
theorem RootSet.takes_other (h : RootSet start path f start.graph.edges ctx)
    (hf : ∀ fields, (f fields).rootExpression = fields.rootExpression ∧
      (f fields).rootProducer = fields.rootProducer)
    {q : NodePath} {input : RootInput} (ht : start.Takes q input) : ctx.Takes q input := by
  have hcells : ∀ r, ctx.cell? r = if r = path then (start.cell? path).map f else start.cell? r :=
    h.cells
  refine ⟨?_, ?_, fun edge he => ?_, ?_, ?_⟩
  · rw [hcells]
    by_cases hq : q = path
    · rw [if_pos hq, Option.isSome_map, ← hq]
      exact ht.cell
    · rw [if_neg hq]
      exact ht.cell
  · rw [← ht.edges]
    unfold ContextGraph.edgesInto
    rw [h.edges, h.resolveExisting]
  · rw [h.resolveExisting]
    exact ht.whole edge he
  · rw [← ht.expression, h.expressionAt]
    by_cases hq : q = path
    · rw [if_pos hq, hq]
      unfold Ctx.expressionAt
      cases start.cell? path with
      | none => rfl
      | some fields => exact (hf fields).1
    · rw [if_neg hq]
  · rw [← ht.producer, h.producerAt]
    by_cases hq : q = path
    · rw [if_pos hq, hq]
      unfold Ctx.producerAt
      cases start.cell? path with
      | none => rfl
      | some fields => exact (hf fields).2
    · rw [if_neg hq]

end Install

/-! ## The builder programs -/

section Builders

variable {env : Substrate} {start : Ctx}

/-- The hidden cell of an Expression takes the root of the Expression. -/
theorem createExpressionRoot_result (root : Checksum) (celltype : Celltype) (ho : start.OneRoot)
    (hh : start.HiddenFree) :
    Triple (· = start) (createExpressionRoot env root celltype)
      (fun source ctx => source ∉ start.graph.nodes ∧ ctx.OneRoot ∧ Grown source start ctx ∧
        ctx.Takes source (.producer ((⟨root, celltype⟩ : ConstantProducer).canonical env)))
      Ctx.OneRoot := by
  refine Triple.get_bind fun ctx => ?_
  obtain ⟨i, hi⟩ := firstFree_name ctx.graph "cell"
  dsimp only
  rw [hi]
  refine Triple.bind (R := fun _ => Created start [.key ("cell" ++ toString i)]
    { celltype := celltype, scratch := true })
    ((createCell_result _ _).conseq (fun _ hc => hc.2) (fun _ _ h => h) fun _ h => h ▸ ho) fun _ => ?_
  refine triple_each fun made hmade => ?_
  refine Triple.bind (R := fun producer ctx => SameRoots made ctx ∧
      producer = (⟨root, celltype⟩ : ConstantProducer).canonical env) ?_ fun producer => ?_
  · refine Triple.bind (R := fun _ => SameRoots made) (Triple.modify fun ctx hc => ?_) fun _ =>
      Triple.pure fun ctx hc => ⟨hc, rfl⟩
    rw [hc]
    exact .of_graph rfl
  refine triple_each fun held hheld => ?_
  obtain ⟨hsame, rfl⟩ := hheld
  refine Triple.bind ((replaceRootProducer_result _ _).conseq (fun _ h => h) (fun _ _ h => h)
    fun ctx hf => (hmade.fewer.trans (hsame.fewer.trans hf)).oneRoot ho) fun _ => ?_
  refine Triple.pure fun ctx hset => ?_
  have hcell : held.cell? [.key ("cell" ++ toString i)] =
      some { config := { celltype := celltype, scratch := true } } := by
    rw [hsame.cells, hmade.cells, if_pos rfl]
  have hwritten := hset.written ((hmade.fewer.trans hsame.fewer).oneRoot ho) (.refl _)
    (fun edge he => ?_) hcell (.producer _) rfl rfl rfl
  · refine ⟨hmade.new, hwritten.1, ?_, hwritten.2⟩
    have hgrown : Grown [.key ("cell" ++ toString i)] made ctx :=
      .of_only ((OnlyAt.of_same hsame).trans (.of_rootSet hset (Or.inl rfl)))
    exact (Grown.of_created hmade).trans hgrown (Or.inr rfl)
  · rw [hsame.resolveExisting]
    rw [hsame.edges] at he
    exact hmade.free hh edge he

/-- When the input of a builder can take the place of the input of a cell. -/
def Ctx.InputReady (ctx : Ctx) (path : NodePath) : InputRef → Prop
  | .endpoint _ => ctx.producerAt path = none ∨ ctx.Derivable
  | .expression .. => ctx.HiddenFree
  | _ => True

instance (ctx : Ctx) (path : NodePath) (input : InputRef) : Decidable (ctx.InputReady path input) := by
  unfold Ctx.InputReady
  split <;> infer_instance

/-- A cell has been given the input of a builder. -/
structure BuiltAt (env : Substrate) (start : Ctx) (upstream : List CellRecipe) (path : NodePath)
    (recipe : CellRecipe) (input : InputRef) (ctx : Ctx) : Prop where
  oneRoot : ctx.OneRoot
  grown : Grown path start ctx
  reads : ctx.Reads env (· ∉ start.graph.nodes) upstream path recipe input

theorem installCell_written {path : NodePath} (config : CellConfig)
    (producer : Option ConstantProducer) (expression : Option RootExpression) (bump : Bool)
    (input : RootInput) (ho : start.OneRoot) (hcell : (start.cell? path).isSome = true)
    (hnone : input.edges = []) (hexpression : expression = input.rootExpression)
    (hproducer : producer = input.rootProducer) :
    Triple (· = start) (installCell path config producer expression bump)
      (fun _ ctx => ctx.OneRoot ∧ OnlyAt path start ctx ∧ ctx.Takes path input) Ctx.OneRoot := by
  refine (installCell_result path config producer expression bump).conseq
    (fun ctx hc => ⟨hc, hc ▸ Ctx.mem_of_cell? hcell⟩) (fun _ ctx hset => ?_) fun ctx hf => hf.oneRoot ho
  obtain ⟨fields, hfields⟩ := Option.isSome_iff_exists.mp hcell
  obtain ⟨hone, htakes⟩ := hset.written ho List.filter_sublist (fun edge he => free_removeEdges he)
    hfields input hnone hexpression hproducer
  exact ⟨hone, .of_rootSet hset (Or.inr rfl), htakes⟩

theorem bindInput_result {path : NodePath} (recipe : CellRecipe) (input : InputRef)
    (ho : start.OneRoot) (hcell : (start.cell? path).isSome = true)
    (hx : start.expressionAt path = none) (hready : start.InputReady path input) :
    Triple (· = start) (bindInput env path recipe input)
      (fun _ => BuiltAt env start [] path recipe input) Ctx.OneRoot := by
  cases input with
  | unset =>
    refine (installCell_written recipe.config none none false .nothing ho hcell rfl rfl rfl).conseq (fun _ h => h) (fun _ ctx ⟨hone, honly, htakes⟩ => ?_) fun _ h => h
    exact ⟨hone, .of_only honly, htakes.uses env⟩
  | rootExpression expression =>
    refine (installCell_written recipe.config none (some expression) true (.expression expression) ho
      hcell rfl rfl rfl).conseq (fun _ h => h)
      (fun _ ctx ⟨hone, honly, htakes⟩ => ?_) fun _ h => h
    exact ⟨hone, .of_only honly, htakes.uses env⟩
  | checksum c =>
    refine Triple.bind (R := fun producer ctx => SameRoots start ctx ∧ producer =
      (⟨c, recipe.inputCelltype.getD recipe.celltype⟩ : ConstantProducer).canonical env) ?_
        fun producer => ?_
    · refine Triple.bind (R := fun _ => SameRoots start) (Triple.modify fun ctx hc => ?_) fun _ =>
        Triple.pure fun ctx hc => ⟨hc, rfl⟩
      rw [hc]
      exact .of_graph rfl
    · refine triple_each fun held hheld => ?_
      obtain ⟨hsame, rfl⟩ := hheld
      refine (installCell_written recipe.config (some _) none true (.producer _)
        (hsame.fewer.oneRoot ho) (by rw [hsame.cells]; exact hcell) rfl rfl rfl).conseq (fun _ h => h)
          (fun _ ctx ⟨hone, honly, htakes⟩ => ?_) fun _ h => h
      exact ⟨hone, .of_only ((OnlyAt.of_same hsame).trans honly), htakes.uses env⟩
  | endpoint ep =>
    refine Triple.bind (addEndpointEdge_root ep false ho hcell hx hready) fun _ => ?_
    refine Triple.modify fun ctx ⟨hone, honly, edge, hd, htakes⟩ => ?_
    have hset := rootSet_mapCell path (fun fields => { fields with config := recipe.config }) ctx
    have hfewer : FewerRoots ctx (ctx.modifyGraph fun g =>
        g.updateNode path (Node.mapCell fun fields => { fields with config := recipe.config })) := by
      refine fewerRoots_updateNode path (fun node => ?_) ctx
      rw [cellFields_mapCell]
      cases node.cellFields <;> exact ⟨Or.inr rfl, Or.inr rfl⟩
    refine ⟨hfewer.oneRoot hone, .of_only (honly.trans (.of_rootSet hset (Or.inl rfl))), edge, hd,
      (hset.takes_other (fun _ => ⟨rfl, rfl⟩) htakes).uses env⟩
  | expression first links root =>
    refine Triple.bind (createExpressionRoot_result root first.inputCelltype ho hready) fun source => ?_
    refine triple_each fun rooted ⟨hnew, hone, hgrown, hsource⟩ => ?_
    have hne : source ≠ path := by
      rintro rfl
      exact hnew (Ctx.mem_of_cell? hcell)
    have hcell' := hgrown.cell?_isSome hcell hne.symm
    refine Triple.bind (installCell_written recipe.config none none true .nothing hone hcell'
      rfl rfl rfl) fun _ => ?_
    refine triple_each fun bare ⟨hone', honly, htakes⟩ => ?_
    have hbare : bare.Unrooted path := ⟨htakes.expression, htakes.producer⟩
    refine (addEdge_root _ _ false hone' htakes.cell hbare).conseq (fun _ h => h)
      (fun _ ctx ⟨hfinal, honly', edge, hd, hedge⟩ => ?_) fun _ h => h.1
    refine ⟨hfinal, ?_, source, edge, hnew, hd, hedge.uses env, ?_⟩
    · refine ⟨fun q hq => ?_, fun q hq hq' => ?_⟩
      · exact (honly'.mem q).mpr ((honly.mem q).mpr (hgrown.nodes q hq))
      · rw [honly'.cells q hq', honly.cells q hq']
        refine hgrown.cells q hq ?_
        rintro rfl
        exact hnew hq
    · exact (honly'.takes hne (honly.takes hne hsource)).uses env

/-- When a builder can take the place of the input of a cell. A builder that reads from another one
is wired to a hidden cell, which drops no stored value. -/
def Ctx.BuilderReady (ctx : Ctx) (path : NodePath) : List CellRecipe → InputRef → Prop
  | [], input => ctx.InputReady path input
  | _ :: _, input => ctx.producerAt path = none ∧
      match input with
      | .expression .. => ctx.HiddenFree
      | _ => True

instance (ctx : Ctx) (path : NodePath) (upstream : List CellRecipe) (input : InputRef) :
    Decidable (ctx.BuilderReady path upstream input) := by
  unfold Ctx.BuilderReady
  split
  · infer_instance
  · split <;> infer_instance

theorem beginReplacement_result {path : NodePath} (recipe : CellRecipe) :
    Triple (· = start) (beginReplacement path recipe)
      (fun _ => RootSet start path (fun fields => { fields with rootExpression := none })
        start.graph.edges) (SameRoots start) := by
  refine Triple.bind ((keepsInputs_detachForBuilder path recipe.celltype).conseq
    (fun _ hc => hc ▸ .refl _) (fun _ _ h => h) fun _ h => h) fun _ => ?_
  refine Triple.modify fun ctx hsame => ?_
  have hkept : RootSet start path id ctx.graph.edges ctx := .of_same hsame
  have := hkept.trans (rootSet_mapCell path
    (fun fields => { fields with rootExpression := none }) ctx)
  rw [hsame.edges] at this
  exact this

theorem oneRoot_of_addsNone {α : Type} {program : M α} (h : ∀ start, AddsNone start program) :
    Keeps Ctx.OneRoot program := by
  intro ctx ho
  have := h ctx ctx (.refl ctx)
  cases hr : program ctx with
  | ok a ctx' => rw [hr] at this; exact this.oneRoot ho
  | error e ctx' => rw [hr] at this; exact this.oneRoot ho

/-- An edge that ends at a node as a whole, and not at a transformer, ends at a cell. -/
theorem Ctx.cell?_of_endsAtParts {ctx : Ctx} {edge : Edge} {path : NodePath}
    (h : ctx.graph.endsAtTransformer edge = false)
    (hr : ctx.graph.resolveExisting edge.target = some (path, [])) :
    (ctx.cell? path).isSome = true := by
  unfold ContextGraph.endsAtTransformer at h
  rw [hr] at h
  dsimp only at h
  obtain ⟨node, hnode⟩ := Option.isSome_iff_exists.mp (AList.lookup_isSome.mpr
    (ContextGraph.resolveExisting_mem hr))
  rw [hnode] at h
  unfold Ctx.cell? Ctx.node?
  rw [hnode]
  obtain ⟨ident, body⟩ := node
  cases body with
  | cell fields => rfl
  | transformer fields => cases h

theorem derivable_congr {a b : Ctx} (hmem : ∀ q, q ∈ b.graph.nodes ↔ q ∈ a.graph.nodes)
    (hcells : ∀ q, (a.cell? q).isSome = true → (b.cell? q).isSome = true)
    (hedges : b.graph.edges = a.graph.edges) (h : a.Derivable) : b.Derivable := by
  have hres := ContextGraph.resolveExisting_congr hmem
  refine ⟨?_, fun edge he => ?_, fun edge he => ?_⟩
  · have hsorted := h.sorted
    unfold sortPaths at hsorted ⊢
    rw [Option.isSome_ite] at hsorted ⊢
    rw [List.all_eq_true] at hsorted ⊢
    intro p hp
    have := hsorted p ((hmem p).mp hp)
    rw [List.all_eq_true] at this ⊢
    exact fun q hq => this q ((hmem q).mp hq)
  · rw [hres]
    exact h.sources edge (hedges ▸ he)
  · refine ContextGraph.endsAtTransformer_of_cell fun path hr => Ctx.isCell_of_cell? (hcells path ?_)
    rw [hres] at hr
    exact Ctx.cell?_of_endsAtParts (h.parts edge (hedges ▸ he)) hr

/-- Only the root expression of the cell is gone. -/
abbrev Began (start : Ctx) (path : NodePath) (ctx : Ctx) : Prop :=
  RootSet start path (fun fields => { fields with rootExpression := none }) start.graph.edges ctx

namespace Began

variable {path : NodePath} {ctx : Ctx}

theorem fewer (h : Began start path ctx) : FewerRoots start ctx := by
  refine ⟨by rw [h.edges], fun q => ?_, fun q => ?_⟩
  · rw [h.expressionAt]
    by_cases hq : q = path
    · rw [if_pos hq]
      cases start.cell? path <;> exact Or.inl rfl
    · rw [if_neg hq]
      exact Or.inr rfl
  · rw [h.producerAt]
    by_cases hq : q = path
    · rw [if_pos hq, hq]
      exact Or.inr rfl
    · rw [if_neg hq]
      exact Or.inr rfl

theorem expression (h : Began start path ctx) : ctx.expressionAt path = none := by
  rw [h.expressionAt, if_pos rfl]
  cases start.cell? path <;> rfl

theorem cell?_isSome_mono (h : Began start path ctx) (q : NodePath)
    (hq : (start.cell? q).isSome = true) : (ctx.cell? q).isSome = true := by
  rw [h.cells]
  split
  · rename_i hpath
    rw [Option.isSome_map, ← hpath]
    exact hq
  · exact hq

theorem cell?_isSome (h : Began start path ctx) (hcell : (start.cell? path).isSome = true) :
    (ctx.cell? path).isSome = true := by
  rw [h.cells, if_pos rfl, Option.isSome_map]
  exact hcell

theorem hiddenFree (h : Began start path ctx) (hh : start.HiddenFree) : ctx.HiddenFree := by
  intro edge he
  rw [h.resolveExisting]
  exact hh edge (h.edges ▸ he)

theorem inputReady (h : Began start path ctx) {input : InputRef} (hr : start.InputReady path input) :
    ctx.InputReady path input := by
  cases input with
  | endpoint ep => exact hr.imp h.fewer.producer (derivable_congr h.mem h.cell?_isSome_mono h.edges)
  | expression first links root => exact h.hiddenFree hr
  | _ => trivial

end Began

/-- By induction on the builders that the cell reads from: each of them is put into a hidden cell. -/
theorem replaceCellFromBuilder_result (upstream : List CellRecipe) :
    ∀ {start : Ctx} {path : NodePath} {recipe : CellRecipe} {input : InputRef}, start.OneRoot →
      (start.cell? path).isSome = true → start.BuilderReady path upstream input →
      Triple (· = start) (replaceCellFromBuilder env upstream path recipe input)
        (fun _ => BuiltAt env start upstream path recipe input) Ctx.OneRoot := by
  induction upstream with
  | nil =>
    intro start path recipe input ho hcell hready
    refine Triple.bind ((beginReplacement_result recipe).conseq (fun _ h => h) (fun _ _ h => h)
      fun ctx h => h.fewer.oneRoot ho) fun _ => ?_
    refine triple_each fun began (hbegan : Began start path began) => ?_
    refine (bindInput_result recipe input (hbegan.fewer.oneRoot ho) (hbegan.cell?_isSome hcell)
      hbegan.expression (hbegan.inputReady hready)).conseq (fun _ h => h) (fun _ ctx hb => ?_)
        fun _ h => h
    refine ⟨hb.oneRoot, ?_, hb.reads.transport (P := fun _ => True) (fun q hq => ⟨?_, trivial⟩)
      (fun _ _ _ h => h) trivial⟩
    · exact (Grown.of_only (.of_rootSet hbegan (Or.inl rfl))).trans hb.grown (Or.inr rfl)
    · exact fun hmem => hq ((hbegan.mem q).mpr hmem)
  | cons next rest ih =>
    intro start path recipe input ho hcell hready
    obtain ⟨hproducer, hhidden⟩ := hready
    refine Triple.bind ((beginReplacement_result recipe).conseq (fun _ h => h) (fun _ _ h => h)
      fun ctx h => h.fewer.oneRoot ho) fun _ => ?_
    refine triple_each fun began (hbegan : Began start path began) => ?_
    have hone := hbegan.fewer.oneRoot ho
    refine Triple.get_bind fun ctx => ?_
    refine Triple.assume (fun _ hc => hc.1 ▸ hc.2) fun hctx => ?_
    subst hctx
    obtain ⟨i, hi⟩ := firstFree_name ctx.graph "cell"
    dsimp only
    rw [hi]
    generalize hsource : ([.key ("cell" ++ toString i)] : NodePath) = source
    refine Triple.bind (R := fun _ => Created ctx source { celltype := next.celltype })
      ((createCell_result _ _).conseq (fun _ hc => hc.1) (fun _ _ h => h) fun _ h => h ▸ hone) fun _ => ?_
    refine triple_each fun made hmade => ?_
    have hpath : path ∈ ctx.graph.nodes := Ctx.mem_of_cell? (hbegan.cell?_isSome hcell)
    have hne : path ≠ source := by
      rintro rfl
      exact hmade.new hpath
    have hready' : made.BuilderReady source rest input := by
      have hmadeHidden : ctx.HiddenFree → made.HiddenFree := hmade.hiddenFree
      cases rest with
      | nil =>
        cases input with
        | endpoint ep => exact Or.inl hmade.unrooted.producer
        | expression first links root => exact hmadeHidden (hbegan.hiddenFree hhidden)
        | _ => trivial
      | cons next' rest' =>
        refine ⟨hmade.unrooted.producer, ?_⟩
        cases input with
        | expression first links root => exact hmadeHidden (hbegan.hiddenFree hhidden)
        | _ => trivial
    -- a failure inside removes the hidden cell again
    refine Triple.bind (Triple.tryCatch (ih (hmade.fewer.oneRoot hone) hmade.cell?_isSome hready')
      fun e => Triple.bind (oneRoot_of_addsNone fun s => addsNone_deleteSubtree source)
        fun _ => Triple.throw fun _ h => h) fun _ => ?_
    refine triple_each fun built hbuilt => ?_
    have hgrown : Grown path ctx built :=
      ((Grown.of_created hmade).trans hbuilt.grown (Or.inr rfl)).of_new hmade.new
    have hunrooted : built.Unrooted path := by
      have hfree : ctx.Unrooted path := ⟨hbegan.expression, hbegan.fewer.producer hproducer⟩
      refine hbuilt.grown.unrooted ?_ hne (hmade.fewer.unrooted hfree)
      exact (hmade.mem path).mpr (Or.inl hpath)
    have hbuiltCell : (built.cell? path).isSome = true := by
      rw [hbuilt.grown.cells path ((hmade.mem path).mpr (Or.inl hpath)) hne, hmade.cells, if_neg hne]
      exact hbegan.cell?_isSome hcell
    refine Triple.bind ((addEdge_root _ _ false hbuilt.oneRoot hbuiltCell
      hunrooted).conseq (fun _ h => h) (fun _ _ h => h) fun _ h => h.1) fun _ => ?_
    refine Triple.modify fun wired ⟨hwired, honly, edge, hd, htakes⟩ => ?_
    have hset := rootSet_mapCell path (fun fields => { fields with config := recipe.config }) wired
    have hfewer : FewerRoots wired (wired.modifyGraph fun g =>
        g.updateNode path (Node.mapCell fun fields => { fields with config := recipe.config })) := by
      refine fewerRoots_updateNode path (fun node => ?_) wired
      rw [cellFields_mapCell]
      cases node.cellFields <;> exact ⟨Or.inr rfl, Or.inr rfl⟩
    refine ⟨hfewer.oneRoot hwired, ?_, source, edge, ?_, hd,
      (hset.takes_other (fun _ => ⟨rfl, rfl⟩) htakes).uses env, ?_⟩
    · have h1 : Grown path start ctx := .of_only (.of_rootSet hbegan (Or.inl rfl))
      have h2 : Grown path built _ := .of_only (honly.trans (.of_rootSet hset (Or.inl rfl)))
      exact (h1.trans hgrown (Or.inr rfl)).trans h2 (Or.inr rfl)
    · exact fun hmem => hmade.new ((hbegan.mem source).mpr hmem)
    · have hfresh : ∀ q, q ∉ made.graph.nodes → q ∉ start.graph.nodes ∧ q ≠ path := by
        intro q hq
        refine ⟨fun hmem => hq ?_, ?_⟩
        · exact (hmade.mem q).mpr (Or.inl ((hbegan.mem q).mpr hmem))
        · rintro rfl
          exact hq ((hmade.mem q).mpr (Or.inl hpath))
      refine hbuilt.reads.transport (P := (· ≠ path)) hfresh ?_ hne.symm
      exact fun q input' hq ht => hset.takes_other (fun _ => ⟨rfl, rfl⟩) (honly.takes hq ht)

theorem Created.builderReady {path : NodePath} {config : CellConfig} {made : Ctx}
    (h : Created start path config made) {upstream : List CellRecipe} {input : InputRef} {q : NodePath}
    (hready : start.BuilderReady q upstream input) : made.BuilderReady path upstream input := by
  cases upstream with
  | nil =>
    cases input with
    | endpoint ep => exact Or.inl h.unrooted.producer
    | expression first links root => exact h.hiddenFree hready
    | _ => trivial
  | cons next rest =>
    refine ⟨h.unrooted.producer, ?_⟩
    cases input with
    | expression first links root => exact h.hiddenFree hready.2
    | _ => trivial

/-- A new cell with a builder; a failure removes it again. -/
theorem createCellFromBuilder_result {path : NodePath} (cell : PreparedCell) (ho : start.OneRoot)
    (hready : start.BuilderReady path cell.upstream cell.input) :
    Triple (· = start) (createCellFromBuilder env path cell)
      (fun _ ctx => ctx.OneRoot ∧
        ctx.Reads env (· ∉ start.graph.nodes) cell.upstream path cell.recipe cell.input)
      Ctx.OneRoot := by
  refine Triple.bind ((createCell_result _ _).conseq (fun _ h => h) (fun _ _ h => h)
    fun _ h => h ▸ ho) fun _ => ?_
  refine triple_each fun made hmade => ?_
  refine Triple.tryCatch ((replaceCellFromBuilder_result cell.upstream (hmade.fewer.oneRoot ho)
    hmade.cell?_isSome (hmade.builderReady hready)).conseq (fun _ h => h) (fun _ ctx hb => ?_)
      fun _ h => h) fun e => Triple.bind (oneRoot_of_addsNone fun s => addsNone_deleteSubtree path)
        fun _ => Triple.throw fun _ h => h
  refine ⟨hb.oneRoot, hb.reads.transport (P := fun _ => True) (fun q hq => ⟨fun hmem => hq ?_, trivial⟩)
    (fun _ _ _ h => h) trivial⟩
  exact (hmade.mem q).mpr (Or.inl hmem)

end Builders

end SeamlessWorkflow
