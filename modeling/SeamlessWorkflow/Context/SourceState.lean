import SeamlessWorkflow.Context.State

/-!
# What an edge delivers

Derivation reads the graph and the known facts, and reports which facts it used and which results
of anonymous links have to be held. `Evaluated` carries the value together with these reports, so
that the value itself is a function of the graph and the facts.
-/

namespace SeamlessWorkflow

/-- A value, the facts that were demanded for it, and the results of anonymous links it produced. -/
structure Evaluated (α : Type) where
  value : α
  used : List FactKey := []
  anonymous : List (Recipe × Checksum) := []

namespace Evaluated

instance : Monad Evaluated where
  pure a := { value := a }
  bind x f :=
    let y := f x.value
    { value := y.value, used := x.used ++ y.used, anonymous := x.anonymous ++ y.anonymous }

@[simp] theorem value_pure {α : Type} (a : α) : (pure a : Evaluated α).value = a := rfl

@[simp] theorem value_bind {α β : Type} (x : Evaluated α) (f : α → Evaluated β) :
    (x >>= f).value = (f x.value).value := rfl

/-- Report the result of an anonymous link. -/
def hold (recipe : Recipe) (checksum : Checksum) : Evaluated Unit :=
  { value := (), anonymous := [(recipe, checksum)] }

end Evaluated

/-- The answer of `_demand` and `_projection`: `complete`, `failed` or `waiting`. -/
structure Projected where
  state : NodeState
  checksum : Option Checksum := none
  error : Option Error := none
  deriving DecidableEq, Repr

/-- `_demand`: the fact when it is known, else a job is wanted and the answer is `waiting`. -/
def demand (v : View) (key : FactKey) : Evaluated Projected :=
  { value := match v.facts.lookup key with
      | some (.result c) => ⟨.complete, some c, none⟩
      | some (.failure e) => ⟨.failed, none, some e⟩
      | none => ⟨.waiting, none, none⟩
    used := [key] }

/-- The evaluation policy of an Expression and the validator of its target. -/
structure Policy where
  validator : Option String := none
  validatorLanguage : Option String := none
  scratch : Bool := true
  materialize : Bool := false

/-- One Expression: the constructor may refuse it, else its result is a fact. -/
def expressionStep (env : Substrate) (v : View) (checksum : Checksum) (localPath : Path)
    (celltype targetType : Celltype) (policy : Policy) : Evaluated Projected :=
  match env.expressionError localPath celltype targetType policy.validator
      policy.validatorLanguage with
  | some e => pure ⟨.failed, none, some e⟩
  | none =>
    demand v (.expression checksum localPath celltype targetType policy.validator
      policy.validatorLanguage policy.scratch policy.materialize)

/-- `_projection`. A path across a deep step is two Expressions, and neither of them meets a deep
step again: the first is the step itself, and the member celltype is not deep. -/
def projection (env : Substrate) (v : View) (checksum : Checksum) (localPath : Path)
    (celltype targetType : Celltype) (policy : Policy) : Evaluated Projected :=
  match deepBarrier celltype localPath targetType with
  | none => expressionStep env v checksum localPath celltype targetType policy
  | some member => do
    let step ← expressionStep env v checksum (localPath.take 1) celltype member {}
    match step.state, step.checksum with
    | .complete, some child =>
      expressionStep env v child (localPath.drop 1) member targetType policy
    | _, _ => pure step

/-- The state that `_source_state` reports. -/
inductive SourceState
  | miswired | unwired | blocked | waiting | computing | complete | failed | blockedByMiswiring
  deriving DecidableEq, Repr

def NodeState.toSource : NodeState → SourceState
  | .miswired => .miswired
  | .unwired => .unwired
  | .blocked => .blocked
  | .waiting => .waiting
  | .computing => .computing
  | .complete => .complete
  | .failed => .failed

/-- What an edge delivers: a state, the checksum, and the error recorded for the edge's target. -/
structure SourceResult where
  state : SourceState
  checksum : Option Checksum := none
  error : Option Error := none
  deriving DecidableEq, Repr

/-- `_edge_target_scratch`. -/
def edgeTargetScratch (target : Node) : Bool :=
  match target.body with
  | .cell fields => fields.config.scratch
  | .transformer fields => fields.config.metadata.allowInputFingertip

namespace ContextGraph

/-- `_celltype_for_path`. -/
def celltypeForPath (g : ContextGraph) (path : NodePath) (localPath : Path) : Celltype :=
  projectedCelltype (g.nodeCelltype path) localPath

/-- `_edge_input_celltype`: the celltype an incoming edge delivers. -/
def edgeInputCelltype (g : ContextGraph) (edge : Edge) : Celltype :=
  match g.resolveExisting edge.source with
  | none => .mixed
  | some (source, sourceLocal) =>
    match edge.sourceCelltype with
    | some celltype =>
      if sourceLocal ≠ [] || edge.sourceConversion then celltype else g.nodeCelltype source
    | none => if sourceLocal ≠ [] then g.celltypeForPath source sourceLocal else g.nodeCelltype source

end ContextGraph

/-- The conversion steps of a recipe, with the step that a bare `source_conversion` stands for. -/
def recipeSteps (edge : Edge) (sourceLocal : Path) (sourceType : Celltype) : List ConversionStep :=
  if edge.sourceConversion && decide (edge.sourceConversionSteps = []) then
    [(if edge.sourceConversionBefore then 0 else sourceLocal.length, sourceType)]
  else edge.sourceConversionSteps

/-- The source type that the target-side comparisons of `_source_state` use. -/
def sourceTypeOf (g : ContextGraph) (edge : Edge) (sourceNode : NodePath) (sourceLocal : Path) :
    Celltype :=
  if sourceLocal ≠ [] then edge.sourceCelltype.getD (g.celltypeForPath sourceNode sourceLocal)
  else if edge.sourceConversion then edge.sourceCelltype.getD (g.nodeCelltype sourceNode)
  else g.nodeCelltype sourceNode

/-- Is a join slot key refused? -/
def slotKeyRefused : Component → Bool
  | .key name => decide (name = "<root>") || decide (name = "<numeric>")
  | .index i => decide (i < 0)
  | .slice .. => true

/-- The member celltype of a deep cell. -/
def deepMemberType (celltype : Celltype) : Celltype :=
  if celltype = .deepcell then .mixed else .bytes

/-- The target-side comparisons of `_source_state` that make an edge `miswired`. -/
def targetMiswired (env : Substrate) (g : ContextGraph) (edge : Edge) (sourceNode : NodePath)
    (sourceLocal : Path) (target : Node) (targetLocal : Path) : Bool :=
  let rootType := g.nodeCelltype sourceNode
  let sourceType := sourceTypeOf g edge sourceNode sourceLocal
  let converts := edge.sourceConversion
  let projects := decide (sourceLocal ≠ [])
  (projects && !converts && decide (sourceType ≠ g.celltypeForPath sourceNode sourceLocal)) ||
  (match target.body with
    | .cell fields =>
      let targetType := fields.config.celltype
      (edge.deepMember && !targetType.isDeep) ||
      (match targetLocal with
        | [] =>
          (projects && !targetType.isDeep && decide (sourceType ≠ targetType) && !converts) ||
          (!projects && decide (sourceType ≠ targetType) &&
            (sourceType.isDeep || targetType.isDeep) &&
            (env.shapeError [] sourceType targetType).isSome)
        | [k] =>
          !targetType.isPinCelltype || slotKeyRefused k ||
          (targetType.isDeep &&
            (!k.isKey || decide (sourceType ≠ deepMemberType targetType)))
        | _ => true)
    | .transformer fields =>
      if targetLocal = [.key "code"] then false
      else
        let pinType := match targetLocal with
          | .key name :: _ => fields.config.celltypeOf name
          | _ => .mixed
        (projects && decide (sourceType ≠ pinType) && !converts) ||
        (!projects && !converts && decide (sourceType ≠ pinType) &&
          (env.shapeError [] sourceType pinType).isSome)) ||
  (deepRecipeError env rootType sourceLocal (recipeSteps edge sourceLocal sourceType)).isSome

/-- The state that a source node which is not complete delivers. -/
def incompleteSource (node : Node) : SourceState :=
  match node.blockReason with
  | some (.slots reasons) =>
    if node.state = .blocked then
      if reasons.any (·.2 = .blockedByMiswiring) then .blockedByMiswiring
      else if reasons.any (·.2 = .blockedByUnwired) then .blocked
      else if reasons.any (·.2 = .blockedByError) then .failed
      else node.state.toSource
    else node.state.toSource
  | some (.one .blockedByError) => .failed
  | _ => node.state.toSource

/-- The recorded recipe of the anonymous link at `index`, or the recomputed one. -/
def linkRecipe (edge : Edge) (index : Nat) (recipe : Recipe) : Recipe :=
  (edge.sourceChain[index]?).getD recipe

/-- The conversions before a deep step, evaluated and held one by one. -/
def deepPrefix (env : Substrate) (v : View) (edge : Edge) (sourceNode : NodePath) :
    List Celltype → Nat → Celltype → Checksum → Evaluated Projected
  | [], _, _, checksum => pure ⟨.complete, some checksum, none⟩
  | converted :: before, index, current, checksum => do
    let result ← if converted ≠ current then
        projection env v checksum [] current converted {}
      else pure ⟨.complete, some checksum, none⟩
    match result.state, result.checksum with
    | .complete, some c => do
      Evaluated.hold (linkRecipe edge index ⟨.node sourceNode, converted, []⟩) c
      deepPrefix env v edge sourceNode before (index + 1) converted c
    | _, _ => pure { result with checksum := none }

/-- `_evaluate_deep_step`: the child that the deep step of a recipe yields. -/
def evaluateDeepStep (env : Substrate) (v : View) (edge : Edge) (sourceNode : NodePath)
    (checksum : Checksum) (rootType : Celltype) (localPath : Path) (deep : DeepSplit)
    (scratch materialize : Bool) : Evaluated Projected := do
  let before ← deepPrefix env v edge sourceNode deep.before 0 rootType checksum
  match before.state, before.checksum with
  | .complete, some c => do
    let isLast := decide (deep.restPath = []) && decide (deep.restSteps = [])
    let step := localPath.take 1
    let child ← projection env v c step deep.deep deep.member
      { scratch := if isLast then scratch else true
        materialize := if isLast then materialize else false }
    match child.state, child.checksum with
    | .complete, some c => do
      if isLast then pure ⟨.complete, some c, none⟩
      else do
        Evaluated.hold (linkRecipe edge deep.before.length ⟨.node sourceNode, deep.member, step⟩) c
        pure ⟨.complete, some c, none⟩
    | _, _ => pure { child with checksum := none }
  | _, _ => pure before

/-- The evaluation of a recipe run by run. -/
def evaluateRuns (env : Substrate) (v : View) (edge : Edge) (sourceNode : NodePath)
    (links : List Link) (chainOffset : Nat) (scratch materialize : Bool) :
    List Run → Checksum → Evaluated SourceResult
  | [], checksum => pure ⟨.complete, some checksum, none⟩
  | run :: runs, checksum =>
    let isLast := decide (runs = [])
    match env.expressionError run.path run.inputCelltype run.celltype none none with
    | some e => pure ⟨.failed, none, some e⟩
    | none => do
      let result ← projection env v checksum run.path run.inputCelltype run.celltype
        { scratch := if isLast then scratch else true
          materialize := if isLast then materialize else false }
      match result.state, result.checksum with
      | .complete, some c => do
        if isLast then pure ⟨.complete, some c, none⟩
        else do
          let link := (links[run.last]?).getD (run.celltype, run.path)
          Evaluated.hold
            (linkRecipe edge (chainOffset + run.last) ⟨.node sourceNode, link.1, link.2⟩) c
          evaluateRuns env v edge sourceNode links chainOffset scratch materialize runs c
      | state, _ => pure ⟨state.toSource, none, result.error⟩

/-- The recipe of an edge over a complete source, after the deep step. -/
def evaluateRecipe (env : Substrate) (v : View) (edge : Edge) (sourceNode : NodePath)
    (rootChecksum : Checksum) (rootType : Celltype) (sourceLocal : Path)
    (steps : List ConversionStep) (chainOffset : Nat) (scratch materialize : Bool) :
    Evaluated SourceResult :=
  if steps ≠ [] then
    let links := anonymousLinks rootType sourceLocal steps
    evaluateRuns env v edge sourceNode links chainOffset scratch materialize
      (fusibleRuns env.preserving rootType links) rootChecksum
  else if sourceLocal ≠ [] then do
    let result ← projection env v rootChecksum sourceLocal rootType
      (projectedCelltype rootType sourceLocal) { scratch, materialize }
    -- the error of a plain projection is not recorded for the target
    pure ⟨result.state.toSource, result.checksum, none⟩
  else pure ⟨.complete, some rootChecksum, none⟩

/-- The scratch policy of an edge: `(edge_scratch, materialize)`. -/
def edgePolicy (edge : Edge) (sourceLocal : Path) (target : Node) (targetLocal : Path) :
    Bool × Bool :=
  let scratch := edgeTargetScratch target
  match target.body with
  | .cell fields =>
    if targetLocal ≠ [] && !fields.config.celltype.isDeep then
      if sourceLocal ≠ [] then (false, true)
      else if edge.sourceConversion then (true, true)
      else (scratch, false)
    else (scratch, false)
  | .transformer _ => (scratch, !scratch)

/-- The part of `_source_state` after the wiring checks. -/
def evaluateSource (env : Substrate) (v : View) (edge : Edge) (sourceNode : NodePath)
    (sourceLocal : Path) (source target : Node) (targetLocal : Path) : Evaluated SourceResult :=
  if source.state = .miswired || source.blockReason = some (.one .blockedByMiswiring) then
    pure ⟨.blockedByMiswiring, none, none⟩
  else if source.state ≠ .complete then pure ⟨incompleteSource source, none, none⟩
  else
    let rootType := v.graph.nodeCelltype sourceNode
    let steps := recipeSteps edge sourceLocal (sourceTypeOf v.graph edge sourceNode sourceLocal)
    let policy := edgePolicy edge sourceLocal target targetLocal
    match source.currentChecksum with
    | none =>
      if (splitDeepStep rootType sourceLocal steps).isSome || steps ≠ [] then
        pure ⟨.unwired, none, none⟩
      else pure ⟨.complete, none, none⟩
    | some rootChecksum =>
      match splitDeepStep rootType sourceLocal steps with
      | none =>
        evaluateRecipe env v edge sourceNode rootChecksum rootType sourceLocal steps 0
          policy.1 policy.2
      | some deep => do
        let child ← evaluateDeepStep env v edge sourceNode rootChecksum rootType sourceLocal deep
          policy.1 policy.2
        match child.state, child.checksum with
        | .complete, some c =>
          evaluateRecipe env v edge sourceNode c deep.member deep.restPath deep.restSteps
            (deep.before.length + 1) policy.1 policy.2
        | state, _ => pure ⟨state.toSource, none, child.error⟩

/-- `_source_state`: what an edge delivers to its target. -/
def sourceState (env : Substrate) (v : View) (edge : Edge) : Evaluated SourceResult :=
  match v.graph.edgeMiswiring edge with
  | some .miswired => pure ⟨.miswired, none, none⟩
  | some .blockedByMiswiring => pure ⟨.blockedByMiswiring, none, none⟩
  | none =>
    match v.graph.resolveExisting edge.source, v.graph.resolveExisting edge.target with
    | some (sourceNode, sourceLocal), some (targetPath, targetLocal) =>
      match v.graph.nodes.lookup sourceNode, v.graph.nodes.lookup targetPath with
      | some source, some target =>
        if targetMiswired env v.graph edge sourceNode sourceLocal target targetLocal then
          pure ⟨.miswired, none, none⟩
        else evaluateSource env v edge sourceNode sourceLocal source target targetLocal
      | _, _ => pure ⟨.unwired, none, none⟩
    | _, _ => pure ⟨.unwired, none, none⟩

end SeamlessWorkflow
