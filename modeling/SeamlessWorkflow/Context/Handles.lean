import SeamlessWorkflow.Graph.ContextGraph

/-!
# Bound handles

A handle reads a node along a path, with `as_celltype` conversions at path positions. It is made from
the bare handle of the node by projections and conversions, and it is what is wired.
-/

namespace SeamlessWorkflow

/-- `BoundCellBackend`, as far as it is a source. -/
structure CellHandle where
  nodePath : NodePath
  localPath : Path := []
  readonly : Bool := false
  conversion : Bool := false
  conversionBefore : Bool := false
  conversionSteps : List ConversionStep := []
  deriving DecidableEq, Repr

namespace CellHandle

/-- `derive` with a celltype. -/
def asCelltype (handle : CellHandle) (celltype : Celltype) : CellHandle :=
  { handle with
    conversion := true
    conversionBefore := if handle.conversion then handle.conversionBefore
      else decide (handle.localPath = [])
    conversionSteps := handle.conversionSteps ++ [((handle.localPath.length : Int), celltype)] }

/-- `derive_item` and `derive_slice`. -/
def item (handle : CellHandle) (k : Component) : CellHandle :=
  { handle with localPath := handle.localPath ++ [k] }

/-- One link of a handle: a path step, or a conversion. -/
inductive HandleLink
  | step (k : Component)
  | conversion (celltype : Celltype)
  deriving DecidableEq, Repr

/-- The loop of `_handle_links`, from a position in the path. -/
def linksFrom (localPath : Path) : List ConversionStep → Nat → List HandleLink
  | [], index => (localPath.drop index).map .step
  | (position, celltype) :: steps, index =>
    let next := max index (min position.toNat localPath.length)
    ((localPath.take next).drop index).map .step ++
      .conversion celltype :: linksFrom localPath steps next

/-- `_handle_links`: the links of a handle in syntax order. -/
def links (handle : CellHandle) : List HandleLink :=
  linksFrom handle.localPath handle.conversionSteps 0

/-- `_handle_celltype`: the celltype of a handle over a parent. -/
def celltype (handle : CellHandle) (parent : Celltype) : Celltype :=
  handle.links.foldl (fun current link =>
    match link with
    | .step k => memberCelltype current k
    | .conversion celltype => celltype) parent

/-- `_workflow_endpoint`. -/
def endpoint (g : ContextGraph) (handle : CellHandle) : BoundEndpoint :=
  { nodePath := handle.nodePath
    kind := if handle.readonly then .transformerResult
      else if handle.localPath = [] then .cellResult else .cellSubvalue
    localPath := handle.localPath, canSource := true
    celltype := some (handle.celltype (g.nodeCelltype handle.nodePath))
    conversion := handle.conversion, conversionBefore := handle.conversionBefore
    conversionSteps := handle.conversionSteps }

/-- The handles that are made from the bare handle of a node. -/
inductive Made : CellHandle → Prop
  | bare (path : NodePath) (readonly : Bool) : Made { nodePath := path, readonly := readonly }
  | item {handle : CellHandle} (k : Component) : Made handle → Made (handle.item k)
  | asCelltype {handle : CellHandle} (celltype : Celltype) :
      Made handle → Made (handle.asCelltype celltype)

end CellHandle

end SeamlessWorkflow
