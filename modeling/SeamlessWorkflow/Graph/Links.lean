import Mathlib.Data.List.Sort

/-!
# Celltypes, paths and anonymous links

A projection path is a sequence of components. Reading a node of some celltype at a path, with
`as_celltype` conversions at given path positions, is a *recipe*; it is cut into anonymous links,
each of which carries either a path or a conversion, and the links are grouped into fusible runs.
-/

namespace SeamlessWorkflow

/-- The celltypes of a cell or a pin. -/
inductive Celltype
  | binary | mixed | text | python | ipython | plain | cson | yaml | str | bytes | int | float
  | bool | checksum | deepcell | deepfolder | folder | module
  deriving DecidableEq, Repr

/-- The text of a celltype. -/
def Celltype.name : Celltype → String
  | .binary => "binary" | .mixed => "mixed" | .text => "text" | .python => "python"
  | .ipython => "ipython" | .plain => "plain" | .cson => "cson" | .yaml => "yaml" | .str => "str"
  | .bytes => "bytes" | .int => "int" | .float => "float" | .bool => "bool"
  | .checksum => "checksum" | .deepcell => "deepcell" | .deepfolder => "deepfolder"
  | .folder => "folder" | .module => "module"

/-- Membership in `DEEP_CELLTYPES`. -/
def Celltype.isDeep : Celltype → Bool
  | .deepcell | .deepfolder | .folder => true
  | _ => false

/-- Membership in `PIN_CELLTYPES`: the celltypes of a cell that can have join slots. -/
def Celltype.isPinCelltype : Celltype → Bool
  | .plain | .mixed | .deepcell | .deepfolder | .folder => true
  | _ => false

/-- One component of a path: a string key, an integer index or a slice. -/
inductive Component
  | key (name : String)
  | index (i : Int)
  | slice (start stop step : Option Int)
  deriving DecidableEq, Repr

namespace Component

def isSlice : Component → Bool
  | .slice .. => true
  | _ => false

def isKey : Component → Bool
  | .key _ => true
  | _ => false

end Component

/-- A path: of a node, of a value inside a node, or both one after the other (a view path). -/
abbrev Path := List Component

/-- The path of a node. A loaded document may use any component in it, so it is not restricted to
string keys. -/
abbrev NodePath := Path

/-- A node path followed by a local path. -/
abbrev ViewPath := Path

/-! ## The order of paths -/

/-- Can the bounds of two slices be compared, one after the other? `None` compares with no integer. -/
def boundsComparable : List (Option Int) → List (Option Int) → Bool
  | a :: as, b :: bs => if a = b then boundsComparable as bs else a.isSome && b.isSome
  | _, _ => true

def boundsLe : List (Option Int) → List (Option Int) → Bool
  | a :: as, b :: bs => if a = b then boundsLe as bs else decide (a.getD 0 ≤ b.getD 0)
  | _, _ => true

/-- Can Python compare two components? Strings, integers and slices are comparable among themselves
only, and slices as the tuples of their bounds. -/
def Component.comparable : Component → Component → Bool
  | .key _, .key _ => true
  | .index _, .index _ => true
  | .slice a b c, .slice a' b' c' => boundsComparable [a, b, c] [a', b', c']
  | _, _ => false

/-- The order of two comparable components. -/
def Component.le : Component → Component → Bool
  | .key a, .key b => decide (a ≤ b)
  | .index i, .index j => decide (i ≤ j)
  | .slice a b c, .slice a' b' c' => boundsLe [a, b, c] [a', b', c']
  | .key _, _ => true
  | .index _, .slice .. => true
  | _, _ => false

/-- Tuples are compared at their first difference. -/
def Path.comparable : Path → Path → Bool
  | a :: p, b :: q => if a = b then Path.comparable p q else a.comparable b
  | _, _ => true

def Path.le : Path → Path → Bool
  | [], _ => true
  | _ :: _, [] => false
  | a :: p, b :: q => if a = b then Path.le p q else a.le b

/-- `sorted` on paths: `TypeError` when two of them do not compare. -/
def sortPaths (paths : List Path) : Option (List Path) :=
  if paths.all fun p => paths.all fun q => p.comparable q then
    some (paths.insertionSort fun p q => p.le q)
  else none

/-- One step of `projected_celltype`: only a non-slice step below a deep celltype changes it. -/
def memberCelltype (celltype : Celltype) (component : Component) : Celltype :=
  if component.isSlice then celltype
  else match celltype with
    | .deepcell => .mixed
    | .deepfolder | .folder => .bytes
    | other => other

/-- The celltype after projecting `path`. -/
def projectedCelltype (celltype : Celltype) (path : Path) : Celltype :=
  path.foldl memberCelltype celltype

@[simp] theorem projectedCelltype_nil (celltype : Celltype) :
    projectedCelltype celltype [] = celltype := rfl

theorem projectedCelltype_cons (celltype : Celltype) (k : Component) (path : Path) :
    projectedCelltype celltype (k :: path) = projectedCelltype (memberCelltype celltype k) path := rfl

theorem memberCelltype_of_not_deep {celltype : Celltype} (h : celltype.isDeep = false)
    (k : Component) : memberCelltype celltype k = celltype := by
  cases celltype <;> simp_all [memberCelltype, Celltype.isDeep]

/-- A projection below a celltype that is not deep keeps the celltype. -/
theorem projectedCelltype_of_not_deep {celltype : Celltype} (h : celltype.isDeep = false)
    (path : Path) : projectedCelltype celltype path = celltype := by
  induction path with
  | nil => rfl
  | cons k path ih => rw [projectedCelltype_cons, memberCelltype_of_not_deep h, ih]

/-- An `as_celltype` conversion at a path position. -/
abbrev ConversionStep := Int × Celltype

/-- An anonymous link: the celltype it yields and the path it reads, `[]` for a conversion. -/
abbrev Link := Celltype × Path

/-- `link_miswired`: is one recorded anonymous link statically ill-formed over its source? -/
def linkMiswired (sourceCelltype celltype : Celltype) (path : Path) : Bool :=
  match path with
  | [] => false
  | k :: rest =>
    if sourceCelltype.isDeep && !(rest.isEmpty && k.isKey) then true
    else decide (celltype ≠ projectedCelltype sourceCelltype path)

/-- The links of one path segment: a step below a deep celltype is a link of its own. -/
def pathLinks (current : Celltype) : Path → List Link
  | [] => []
  | [k] => [(projectedCelltype current [k], [k])]
  | k :: rest =>
    if current.isDeep then
      let member := projectedCelltype current [k]
      [(member, [k]), (projectedCelltype member rest, rest)]
    else [(projectedCelltype current (k :: rest), k :: rest)]

/-- Conversion steps ordered by position; conversions at one position keep their order. -/
def sortedSteps (steps : List ConversionStep) : List ConversionStep :=
  steps.insertionSort fun a b => a.1 ≤ b.1

/-- The celltype after a list of links. -/
def linksCelltype (current : Celltype) (links : List Link) : Celltype :=
  (links.getLast?.map Prod.fst).getD current

/-- The loop of `anonymous_links` over the sorted steps, at celltype `current` and path position
`position`. -/
def anonymousLinksFrom (localPath : Path) :
    List ConversionStep → Celltype → Nat → List Link
  | [], current, position => pathLinks current (localPath.drop position)
  | (stepPosition, converted) :: steps, current, position =>
    let next := min (max stepPosition.toNat position) localPath.length
    pathLinks current ((localPath.take next).drop position) ++
      (converted, []) :: anonymousLinksFrom localPath steps converted next

/-- `anonymous_links`: split a source recipe into its anonymous links, innermost first. -/
def anonymousLinks (sourceCelltype : Celltype) (localPath : Path)
    (conversionSteps : List ConversionStep) : List Link :=
  anonymousLinksFrom localPath (sortedSteps conversionSteps) sourceCelltype 0

/-- One fusible run: the links from the previous run's end up to the link with index `last` are one
Expression from `inputCelltype` along `path` to `celltype`. -/
structure Run where
  inputCelltype : Celltype
  path : Path
  celltype : Celltype
  last : Nat
  deriving DecidableEq, Repr

/-- The run that is still open while the links are grouped. -/
structure OpenRun extends Run where
  endsInConversion : Bool
  absorbed : Bool

/-- The runs that closing the open run adds. -/
def OpenRun.close : Option OpenRun → List Run
  | none => []
  | some run => [run.toRun]

/-- The loop of `fusible_runs`. `preserving` is the union of the conversion tables `conversion_trivial`
and `conversion_reinterpret`. -/
def fusibleRunsFrom (preserving : Celltype → Celltype → Bool) :
    List Link → Celltype → Nat → Option OpenRun → List Run
  | [], _, _, openRun => OpenRun.close openRun
  | (celltype, path) :: links, current, index, openRun =>
    if current.isDeep || celltype.isDeep then
      OpenRun.close openRun ++
        ⟨current, path, celltype, index⟩ :: fusibleRunsFrom preserving links celltype (index + 1) none
    else if path ≠ [] then
      match openRun with
      | none => fusibleRunsFrom preserving links celltype (index + 1)
          (some ⟨⟨current, path, celltype, index⟩, false, false⟩)
      | some run =>
        if !run.endsInConversion then
          fusibleRunsFrom preserving links celltype (index + 1)
            (some { run with path := run.path ++ path, celltype := celltype, last := index })
        else if run.path = [] && !run.absorbed &&
            (decide (run.inputCelltype = run.celltype) || preserving run.inputCelltype run.celltype) then
          -- a checksum-preserving conversion fuses into the path that follows it
          fusibleRunsFrom preserving links celltype (index + 1)
            (some ⟨⟨run.celltype, path, celltype, index⟩, false, true⟩)
        else
          run.toRun :: fusibleRunsFrom preserving links celltype (index + 1)
            (some ⟨⟨current, path, celltype, index⟩, false, false⟩)
    else
      match openRun with
      | none => fusibleRunsFrom preserving links celltype (index + 1)
          (some ⟨⟨current, [], celltype, index⟩, true, false⟩)
      | some run =>
        if celltype = current then
          fusibleRunsFrom preserving links celltype (index + 1) (some { run with last := index })
        else if run.endsInConversion then
          run.toRun :: fusibleRunsFrom preserving links celltype (index + 1)
            (some ⟨⟨current, [], celltype, index⟩, true, false⟩)
        else
          fusibleRunsFrom preserving links celltype (index + 1)
            (some { run with celltype := celltype, last := index, endsInConversion := true })

/-- `fusible_runs`: group anonymous links into maximal fusible runs. -/
def fusibleRuns (preserving : Celltype → Celltype → Bool) (sourceCelltype : Celltype)
    (links : List Link) : List Run :=
  fusibleRunsFrom preserving links sourceCelltype 0 none

/-- A recipe split at its deep step. -/
structure DeepSplit where
  /-- The celltypes of the conversions before the step. -/
  before : List Celltype
  /-- The celltype the step reads. -/
  deep : Celltype
  /-- The celltype the step yields. -/
  member : Celltype
  restPath : Path
  restSteps : List ConversionStep
  deriving DecidableEq, Repr

/-- `split_deep_step`: split a source recipe at its deep step, if it has one. -/
def splitDeepStep (celltype : Celltype) (localPath : Path) (conversionSteps : List ConversionStep) :
    Option DeepSplit :=
  match localPath with
  | [] => none
  | k :: rest =>
    let steps := sortedSteps conversionSteps
    let before := (steps.filter fun step => decide (step.1 ≤ 0)).map Prod.snd
    let current := before.getLastD celltype
    if current.isDeep then
      some ⟨before, current, projectedCelltype current [k], rest,
        (steps.filter fun step => decide (0 < step.1)).map fun step => (step.1 - 1, step.2)⟩
    else none

/-- `deep_barrier`: the member celltype when `path` over `celltype` must stop at a deep step. -/
def deepBarrier (celltype : Celltype) (path : Path) (targetType : Celltype) : Option Celltype :=
  match path with
  | [] => none
  | k :: rest =>
    if !celltype.isDeep then none
    else
      let member := projectedCelltype celltype [k]
      if member.isDeep then none
      else if rest = [] && (decide (targetType = member) || decide (targetType = .checksum)) then none
      else some member

end SeamlessWorkflow
