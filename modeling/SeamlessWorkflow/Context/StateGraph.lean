import SeamlessWorkflow.Context.PathText
import SeamlessWorkflow.Context.System
import SeamlessWorkflow.Share.StateGraphs
import SeamlessWorkflow.Library.Json

/-!
# The state graph of a Context

What `_publish_state_graph` describes of a graph, how it is encoded, and the publications of one
Context in a run of it.
-/

namespace SeamlessWorkflow

/-- A value that is described. `json.dumps` does not know slices. -/
abbrev Described := JsonInput Component (Option Int × Option Int × Option Int)

/-- The keys of the mappings of a description: a slice has no text. -/
def componentKeys : JsonKeys Component where
  comparable := Component.comparable
  le := Component.le
  text
    | .key name => some name
    | .index i => some (toString i)
    | .slice .. => none

def Component.described : Component → Described
  | .key name => .str name
  | .index i => .int i
  | .slice start stop step => .unknown (start, stop, step)

/-- `list(path)`. -/
def Path.described (path : Path) : Described := .list (path.map Component.described)

/-- A mapping with string keys. -/
def described (entries : List (String × Described)) : Described :=
  .dict (entries.map fun entry => (.key entry.1, entry.2))

/-- A text, or `None`. -/
def describedText : Option String → Described
  | some text => .str text
  | none => .null

/-- `checksum.hex()`. -/
def Checksum.hex (c : Checksum) : String :=
  let digits := Nat.toDigits 16 c.value
  String.ofList (List.replicate (64 - digits.length) '0' ++ digits)

def NodeState.text : NodeState → String
  | .miswired => "miswired"
  | .unwired => "unwired"
  | .blocked => "blocked"
  | .waiting => "waiting"
  | .computing => "computing"
  | .complete => "complete"
  | .failed => "failed"

def Reason.text : Reason → String
  | .miswired => "miswired"
  | .unwired => "unwired"
  | .blockedByMiswiring => "blocked-by-miswiring"
  | .blockedByUnwired => "blocked-by-unwired"
  | .blockedByError => "blocked-by-error"
  | .waiting => "waiting"

/-- `type(error).__name__`. -/
def ErrorKind.className : ErrorKind → String
  | .pathError => "PathError"
  | .dependencyError => "DependencyError"
  | .authorityError => "AuthorityError"
  | .nodeError => "NodeError"
  | .staleWorkflowHandleError => "StaleWorkflowHandleError"
  | .valueUnavailableError => "ValueUnavailableError"
  | .concurrentUpdateError => "ConcurrentUpdateError"
  | .typeError => "TypeError"
  | .valueError => "ValueError"
  | .keyError => "KeyError"
  | .indexError => "IndexError"
  | .attributeError => "AttributeError"
  | .runtimeError => "RuntimeError"
  | .executionError => "WorkflowExecutionError"
  | .mountError => "MountError"
  | .controllerFailedError => "ControllerFailedError"
  | .closedContextError => "ClosedContextError"

/-- `_cell_block_reason`. -/
def cellBlockReason (node : Node) : Described :=
  match node.blockReason with
  | none => .null
  | some (.one reason) => .str reason.text
  | some (.slots reasons) => .dict (reasons.map fun entry => (entry.1, .str entry.2.text))

/-- `_cell_exception`. -/
def cellException (node : Node) : Option String :=
  if node.state = .failed then node.exception.map Error.text else none

/-- `_transformer_block_reason`. -/
def transformerBlockReason (node : Node) (fields : TransformerFields) : Described :=
  match node.state with
  | .miswired | .unwired | .blocked | .waiting =>
    if fields.pinBlockReasons = [] then .null
    else described (fields.pinBlockReasons.map fun entry => (entry.1, .str entry.2.text))
  | _ => .null

/-- `_transformer_exception`: the text, after the name of the class where it does not contain it. -/
def transformerException (node : Node) : Option String :=
  if node.state = .failed ∨ node.state = .blocked then
    node.exception.map fun e =>
      let className := e.kind.className
      if className ≠ "WorkflowExecutionError" ∧ ¬ className.toList <:+: e.text.toList then
        className ++ ": " ++ e.text
      else e.text
  else none

/-- The description of a node. -/
def describedNode (path : NodePath) (node : Node) : Described :=
  described <|
    (match node.body with
      | .cell fields =>
        [("type", .str "cell"), ("path", path.described),
          ("celltype", .str fields.config.celltype.name), ("block_reason", cellBlockReason node),
          ("exception", describedText (cellException node))]
      | .transformer fields =>
        [("type", .str "transformer"), ("path", path.described),
          ("language", .str fields.config.language),
          ("block_reason", transformerBlockReason node fields),
          ("exception", describedText (transformerException node))]) ++
    [("state", .str node.state.text),
      ("checksum", describedText (node.currentChecksum.map Checksum.hex))]

/-- The source of a connection. Those that are written have no path below their reference. -/
def ConnectionSource.described : ConnectionSource → Described
  | .flat path => path.described
  | .node path _ _ => SeamlessWorkflow.described [("node", path.described)]
  | .symbol name _ => SeamlessWorkflow.described [("symbol", .str name)]

def ConnectionEntry.described (entry : ConnectionEntry) : Described :=
  SeamlessWorkflow.described <|
    [("type", .str "connection"), ("target", entry.target.described),
      ("source", entry.source.described)] ++
    if entry.deepMember then [("deep_member", .bool true)] else []

section

variable (writer : PathWriter)

def AnonymousEntry.described (entry : AnonymousEntry) : Described :=
  SeamlessWorkflow.described
    [("source", match entry.source with
      | .node path => SeamlessWorkflow.described [("node", path.described)]
      | .symbol name => SeamlessWorkflow.described [("symbol", .str name)]),
      ("celltype", .str entry.celltype.name), ("path", .str (pathString writer entry.path))]

/-- `_state_graph`. -/
def stateGraph (g : ContextGraph) : Except Error Described := do
  match sortPaths g.nodes.keys, sortEdges g.edges with
  | some paths, some edges =>
    let nodes := paths.filterMap fun path => (g.nodes.lookup path).map (describedNode path)
    let (connections, entries) ← graphConnections g edges []
    return described
      [("nodes", .list nodes),
        ("anonymous_nodes", described (entries.map fun entry =>
          (entry.1, entry.2.described writer))),
        ("connections", .list (connections.map ConnectionEntry.described))]
  | _, _ => throw ⟨.typeError, "'<' not supported between instances of 'int' and 'str'", 0⟩

/-- The text that `_publish_state_graph` publishes. -/
def stateGraphBody (g : ContextGraph) : Except Error String := do
  match JsonInput.dumps componentKeys (← stateGraph writer g) with
  | some body => return body
  -- or the keys of a mapping do not compare
  | none => throw ⟨.typeError, "Object of type slice is not JSON serializable", 0⟩

end

/-! ## Publications -/

/-- A Context with what it has published. -/
structure Publisher where
  system : System := {}
  /-- `_state_graph_published` -/
  published : Option StatePublication := none
  /-- What the refreshes so far have published or raised. -/
  refreshes : List (Except Error StatePublication) := []

namespace Publisher

inductive Event
  /-- A step of the Context that is not a refresh. -/
  | context (event : SeamlessWorkflow.Event)
  /-- A turn of `_state_graph_refresh`. -/
  | refresh (now : Nat) (missing : List Checksum)

/-- `_publish_state_graph`. -/
def publish (writer : PathWriter) (sha256 : String → Checksum) (s : Publisher) :
    Except Error StatePublication := do
  let body ← stateGraphBody writer s.system.ctx.graph
  return ({ published := s.published } : GraphSource).publish sha256 body

def step (env : Substrate) (writer : PathWriter) (sha256 : String → Checksum)
    (s : Publisher) : Event → Option Publisher
  | .context event => (s.system.step env event).map fun system => { s with system := system }
  | .refresh now missing =>
    let turned := { s with system := s.system.turn env (pure () : M Unit) now missing }
    -- a turn that fails before the publication publishes nothing
    if (s.system.reply env (pure () : M Unit) now missing).isNone then some turned
    else
      let result := turned.publish writer sha256
      some { turned with
        published := result.toOption.orElse fun _ => s.published
        refreshes := s.refreshes ++ [result] }

end Publisher

end SeamlessWorkflow
