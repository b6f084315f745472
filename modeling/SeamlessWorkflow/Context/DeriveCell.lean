import SeamlessWorkflow.Context.SourceState

/-!
# The derivation of a cell

A cell has one of these inputs: a root edge, sub-path edges that are joined, a root expression, or a
stored producer. `cellOutcome` is what `_derive_cell` decides from them. It reads the sources of the
cell, never the derived fields of the cell itself.
-/

namespace SeamlessWorkflow

/-- What derivation writes into a node. An exception of `none` leaves the recorded one in place. -/
structure Outcome where
  state : NodeState
  blockReason : Option BlockReason := none
  checksum : Option Checksum := none
  exception : Option (Option Error) := some none
  deriving DecidableEq, Repr

namespace Outcome

def miswired : Outcome := { state := .miswired }

def failed (error : Option Error) : Outcome := { state := .failed, exception := some error }

def complete (checksum : Option Checksum) : Outcome := { state := .complete, checksum := checksum }

/-- The answer of an Expression as the outcome of its cell. -/
def ofProjected (p : Projected) : Outcome :=
  { state := p.state, checksum := p.checksum, exception := some p.error }

end Outcome

namespace ContextGraph

/-- The step of `_fused_projection_source` upstream of a cell, when the run continues there. -/
def fusedStep (g : ContextGraph) (path : NodePath) (celltype : Celltype) :
    Option (NodePath × Path) :=
  match g.incomingFor path with
  | [([], edge)] =>
    if edge.sourceConversion || decide (edge.sourceConversionSteps ≠ []) then none
    else match g.resolveExisting edge.source with
      | none => none
      | some (sourcePath, sourceLocal) =>
        match g.nodes.lookup sourcePath with
        | none => none
        | some source =>
          if !source.isCell then none
          else if edge.sourceCelltype.getD (g.celltypeForPath sourcePath sourceLocal) ≠ celltype then
            none
          else if sourceLocal ≠ [] && (g.nodeCelltype sourcePath).isDeep then none
          else some (sourcePath, sourceLocal)
  | _ => none

/-- The loop of `_fused_projection_source`. Each round visits a new node, so the number of nodes
bounds the rounds. -/
def fusedFrom (g : ContextGraph) : Nat → List NodePath → NodePath → Path →
    Option (Checksum × Celltype × Path) → Option (Checksum × Celltype × Path)
  | 0, _, _, _, root => root
  | fuel + 1, visited, path, localPath, root =>
    if path ∈ visited then root
    else match g.nodes.lookup path with
      | none => root
      | some node =>
        match node.isCell, node.currentChecksum with
        | true, some checksum =>
          let celltype := g.nodeCelltype path
          let root := some (checksum, celltype, localPath)
          match g.fusedStep path celltype with
          | none => root
          | some (sourcePath, sourceLocal) =>
            fusedFrom g fuel (path :: visited) sourcePath (sourceLocal ++ localPath) root
        | _, _ => root

/-- `_fused_projection_source`: the root of the maximal fusible run that ends at a projection of a
cell: its checksum, its celltype and the path from it. -/
def fusedProjectionSource (g : ContextGraph) (path : NodePath) (localPath : Path) :
    Option (Checksum × Celltype × Path) :=
  g.fusedFrom (g.nodes.keys.length + 1) [] path localPath none

end ContextGraph

/-- The policy of the last Expression of a cell: the validator of the cell, and its scratch flag. -/
def cellPolicy (config : CellConfig) : Policy :=
  { validator := config.validator, validatorLanguage := config.validatorLanguage
    scratch := config.scratch }

/-- `_apply_upstream_state` for a state that is not `complete`. -/
def upstreamOutcome : SourceState → Outcome
  | .failed => { state := .blocked, blockReason := some (.one .blockedByError), exception := none }
  | .miswired | .blockedByMiswiring =>
    { state := .blocked, blockReason := some (.one .blockedByMiswiring), exception := none }
  | .blocked | .unwired =>
    { state := .blocked, blockReason := some (.one .blockedByUnwired), exception := none }
  | _ => { state := .waiting, exception := none }

/-- The reason that `_apply_pending` records for a join slot in some state. -/
def slotReason : SourceState → Option Reason
  | .miswired => some .miswired
  | .blockedByMiswiring => some .blockedByMiswiring
  | .failed => some .blockedByError
  | .blocked | .unwired => some .blockedByUnwired
  | _ => none

/-- `_apply_pending` with `join`: the outcome of a join with slots that are not complete. -/
def pendingOutcome (pending : List (Path × SourceState)) : Outcome :=
  let reasons := pending.foldl (fun reasons slot =>
    match slotReason slot.2, slot.1 with
    | some reason, k :: _ => Dict.setItem k reason reasons
    | _, _ => reasons) []
  { state :=
      if reasons.any (fun entry => entry.2 = .miswired) then .miswired
      else if reasons.any (fun entry => entry.2 = .unwired) then .unwired
      else if reasons ≠ [] then .blocked else .waiting
    blockReason := if reasons = [] then none else some (.slots reasons)
    exception := none }

/-- The plain projection of a complete source, without an `as_celltype` conversion. -/
def directOutcome (env : Substrate) (v : View) (config : CellConfig) (edge : Edge)
    (sourcePath : NodePath) (sourceLocal : Path) (sourceChecksum : Checksum) : Evaluated Outcome :=
  if (deepRecipeError env (v.graph.nodeCelltype sourcePath) sourceLocal []).isSome ||
      (!config.celltype.isDeep &&
        decide (v.graph.celltypeForPath sourcePath sourceLocal ≠ config.celltype)) then
    pure .miswired
  else do
    let root := (v.graph.fusedProjectionSource sourcePath sourceLocal).getD
      (sourceChecksum, v.graph.nodeCelltype sourcePath, sourceLocal)
    match deepBarrier root.2.1 root.2.2 config.celltype with
    | some member => do
      -- the deep step is a fusion barrier, so its result is held
      let child ← projection env v root.1 (root.2.2.take 1) root.2.1 member {}
      match child.state, child.checksum with
      | .complete, some c =>
        if 1 < root.2.2.length then
          Evaluated.hold (linkRecipe edge 0 ⟨.node sourcePath, member, root.2.2.take 1⟩) c
        else pure ()
      | _, _ => pure ()
    | none => pure ()
    let result ← projection env v root.1 root.2.2 root.2.1 config.celltype (cellPolicy config)
    pure (.ofProjected result)

/-- A root edge that is not a plain projection of a complete source: what the edge delivers is taken
over, or converted when it is another node's own value. -/
def rootEdgeOutcome (env : Substrate) (v : View) (config : CellConfig) (edge : Edge)
    (sourcePath : NodePath) (sourceLocal : Path) : Evaluated Outcome := do
  let source ← sourceState env v edge
  match source.state, source.checksum with
  | .complete, checksum =>
    let sourceType := v.graph.nodeCelltype sourcePath
    if !edge.sourceConversion && sourceLocal = [] && sourceType ≠ config.celltype then
      match checksum with
      | some c => do
        let result ← projection env v c [] sourceType config.celltype (cellPolicy config)
        pure (.ofProjected result)
      | none => pure (.complete none)
    else pure (.complete checksum)
  | .failed, _ =>
    match source.error with
    | some e => pure (.failed (some e))
    | none => pure (upstreamOutcome .failed)
  | .miswired, _ => pure .miswired
  | state, _ => pure (upstreamOutcome state)

/-- The value of one join slot. -/
inductive Slot
  | member (key : Component) (checksum : Checksum)
  | pending (localPath : Path) (state : SourceState)
  | failed (error : Option Error)

/-- One join slot: what its edge delivers, converted into the celltype of the cell. -/
def joinSlot (env : Substrate) (v : View) (config : CellConfig) (localPath : Path) (edge : Edge) :
    Evaluated Slot := do
  let source ← sourceState env v edge
  match source.state, source.checksum, localPath with
  | .complete, some c, k :: _ =>
    let sourceType := edge.sourceCelltype.getD
      (((v.graph.resolveExisting edge.source).map fun r => v.graph.nodeCelltype r.1).getD .mixed)
    if !config.celltype.isDeep && sourceType ≠ config.celltype then do
      let result ← projection env v c [] sourceType config.celltype { materialize := true }
      match result.state, result.checksum with
      | .complete, some c => pure (.member k c)
      | .failed, _ => pure (.failed result.error)
      | _, _ => pure (.pending localPath .complete)
    else pure (.member k c)
  | state, _, _ => pure (.pending localPath state)

/-- The join slots in turn, up to the first one that fails. -/
def joinSlots (env : Substrate) (v : View) (config : CellConfig) :
    List (Path × Edge) → Evaluated (List Slot)
  | [] => pure []
  | (localPath, edge) :: incoming => do
    let slot ← joinSlot env v config localPath edge
    match slot with
    | .failed e => pure [.failed e]
    | slot => do
      let slots ← joinSlots env v config incoming
      pure (slot :: slots)

/-- The root of a join: the stored producer, converted into the celltype of the cell. -/
def joinRoot (env : Substrate) (v : View) (config : CellConfig)
    (producer : Option ConstantProducer) : Evaluated (Option Checksum ⊕ Outcome) :=
  match producer with
  | none => pure (.inl none)
  | some producer =>
    if producer.celltype = config.celltype then pure (.inl (some producer.checksum))
    else do
      let result ← projection env v producer.checksum [] producer.celltype config.celltype
        { materialize := true }
      match result.state, result.checksum with
      | .complete, some c => pure (.inl (some c))
      | .failed, _ => pure (.inr (.failed result.error))
      | _, _ => pure (.inr { state := .waiting })

/-- The evaluation of a join whose slots and root are all known. -/
def celljoinOutcome (env : Substrate) (v : View) (config : CellConfig) (root : Option Checksum)
    (members : List (Component × Checksum)) : Evaluated Outcome :=
  let celltype := if config.celltype = .folder then .deepfolder else config.celltype
  match env.celljoin celltype root members with
  | .error e => pure (.failed (some e))
  | .ok joined => do
    let result ← demand v (.celljoin joined celltype config.scratch)
    pure (.ofProjected result)

/-- The outcome of a cell with sub-path edges. -/
def joinOutcome (env : Substrate) (v : View) (fields : CellFields) (incoming : List (Path × Edge)) :
    Evaluated Outcome := do
  let slots ← joinSlots env v fields.config incoming
  match slots.findSome? (fun slot => match slot with | .failed e => some e | _ => none) with
  | some e => pure (.failed e)
  | none =>
    let pending := slots.filterMap fun slot =>
      match slot with
      | .pending localPath state => some (localPath, state)
      | _ => none
    if pending ≠ [] then pure (pendingOutcome pending)
    else do
      let root ← joinRoot env v fields.config fields.rootProducer
      match root with
      | .inr outcome => pure outcome
      | .inl root =>
        celljoinOutcome env v fields.config root (slots.filterMap fun slot =>
          match slot with
          | .member k c => some (k, c)
          | _ => none)

/-- The outcome of a cell without edges: its root expression or its stored producer. -/
def ownOutcome (env : Substrate) (v : View) (fields : CellFields) : Evaluated Outcome :=
  match fields.rootExpression with
  | some expression =>
    match env.computeExpression expression with
    | .ok c => pure (.complete (some c))
    | .error e => pure (.failed (some e))
  | none =>
    match fields.rootProducer with
    | none => pure { state := .unwired }
    | some producer =>
      if producer.celltype ≠ fields.config.celltype || fields.config.validator.isSome then do
        let result ← projection env v producer.checksum [] producer.celltype fields.config.celltype
          (cellPolicy fields.config)
        pure (.ofProjected result)
      else pure (.complete (some producer.checksum))

/-- `_derive_cell`: what the inputs of a cell make of it. -/
def cellOutcome (env : Substrate) (v : View) (senseErrors : List Error) (path : NodePath)
    (fields : CellFields) : Evaluated Outcome :=
  match senseErrors with
  | e :: _ => pure (.failed (some e))
  | [] =>
    let incoming := v.graph.incomingFor path
    match incoming.lookup [] with
    | some edge =>
      match v.graph.resolveExisting edge.source with
      | none => pure .miswired
      | some (sourcePath, sourceLocal) =>
        match (v.graph.nodes.lookup sourcePath).map fun s => (s.state, s.currentChecksum) with
        | some (NodeState.complete, some checksum) =>
          if sourceLocal ≠ [] && (v.graph.edgeMiswiring edge).isNone &&
              !edge.sourceConversionBefore && !edge.sourceConversion then
            directOutcome env v fields.config edge sourcePath sourceLocal checksum
          else rootEdgeOutcome env v fields.config edge sourcePath sourceLocal
        | _ => rootEdgeOutcome env v fields.config edge sourcePath sourceLocal
    | none =>
      if incoming = [] then ownOutcome env v fields else joinOutcome env v fields incoming

end SeamlessWorkflow
