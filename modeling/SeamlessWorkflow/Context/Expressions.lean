import SeamlessWorkflow.Context.Handles
import SeamlessWorkflow.Context.SourceState

/-!
# Expressions

An Expression reads its input at a path and converts what it finds. The class itself belongs to another
package, so it is a parameter here: what can be built, and what it evaluates to.
-/

namespace SeamlessWorkflow

/-- The Expression class. An Expression has no value when its evaluation fails. -/
structure ExpressionClass where
  Expression : Type
  /-- A checksum as the input of an Expression. -/
  bare : Checksum → Expression
  /-- `Expression(input, path=..., input_celltype=..., celltype=...)` -/
  nested : Expression → Path → Celltype → Celltype → Expression
  value : Expression → Option Checksum

namespace ExpressionClass

variable (E : ExpressionClass)

/-- `evaluate_projection`: one Expression over a checksum. -/
def apply (path : Path) (celltype targetType : Celltype) (checksum : Checksum) : Option Checksum :=
  E.value (E.nested (E.bare checksum) path celltype targetType)

/-- `_projection`, once everything that it demands is known. -/
def project (path : Path) (celltype targetType : Celltype) (checksum : Checksum) : Option Checksum :=
  match deepBarrier celltype path targetType with
  | none => E.apply path celltype targetType checksum
  | some member =>
    (E.apply (path.take 1) celltype member checksum).bind (E.apply (path.drop 1) member targetType)

/-- Anonymous links, evaluated one by one. -/
def evaluateLinks : Celltype → List Link → Checksum → Option Checksum
  | _, [], checksum => some checksum
  | current, (celltype, path) :: links, checksum =>
    (E.project path current celltype checksum).bind (evaluateLinks celltype links)

/-- Fusible runs, evaluated one by one. -/
def evaluateRuns : List Run → Checksum → Option Checksum
  | [], checksum => some checksum
  | run :: runs, checksum =>
    (E.project run.path run.inputCelltype run.celltype checksum).bind (evaluateRuns runs)

/-- The loop of `_handle_expression`. -/
def expressionFrom : List CellHandle.HandleLink → E.Expression → Celltype → E.Expression
  | [], current, _ => current
  | .step k :: links, current, currentType =>
    let nextType := memberCelltype currentType k
    expressionFrom links (E.nested current [k] currentType nextType) nextType
  | .conversion celltype :: links, current, currentType =>
    if celltype ≠ currentType then
      expressionFrom links (E.nested current [] currentType celltype) celltype
    else expressionFrom links current currentType

/-- `_handle_expression`: the Expression of a handle over its parent's checksum. -/
def handleExpression (handle : CellHandle) (parentChecksum : Checksum) (parentCelltype : Celltype) :
    E.Expression :=
  E.expressionFrom handle.links (E.bare parentChecksum) parentCelltype

/-- `_path_expression`: a path over an input, never fused across a deep step. -/
def pathExpression (source : E.Expression) (inputType : Celltype) (path : Path)
    (celltype : Celltype) : E.Expression :=
  match deepBarrier inputType path celltype with
  | none => E.nested source path inputType celltype
  | some member =>
    let step := E.nested source (path.take 1) inputType member
    if path.drop 1 = [] && decide (celltype = member) then step
    else E.nested step (path.drop 1) member celltype

/-- The loop of `_build_conversion_expression` over the sorted steps: the Expression built so far, none
as long as the checksum stands for itself, and the celltype reached. The positions of a handle are not
negative. -/
def conversionExpressionFrom (checksum : Checksum) (localPath : Path) :
    List ConversionStep → Option E.Expression → Celltype → Nat → Option E.Expression × Celltype
  | [], current, currentType, index =>
    let segment := localPath.drop index
    if segment ≠ [] then
      let nextType := projectedCelltype currentType segment
      (some (E.pathExpression (current.getD (E.bare checksum)) currentType segment nextType), nextType)
    else (current, currentType)
  | (stepPosition, converted) :: steps, current, currentType, index =>
    let position := min stepPosition.toNat localPath.length
    let segment := (localPath.take position).drop index
    let nextType := projectedCelltype currentType segment
    let read := if segment ≠ [] then
        some (E.pathExpression (current.getD (E.bare checksum)) currentType segment nextType)
      else current
    let index := if segment ≠ [] then position else index
    if converted ≠ nextType then
      conversionExpressionFrom checksum localPath steps
        (some (E.nested (read.getD (E.bare checksum)) [] nextType converted)) converted index
    else conversionExpressionFrom checksum localPath steps read nextType index

/-- What the code relies on. An Expression over an Expression reads what that evaluates to; one that
neither reads nor converts is a dummy; the conversions of the two tables preserve the checksum; paths
compose below a celltype that is not deep, and there an Expression with both a path and a conversion
reads first and then converts; a deep checksum is read by items only. -/
structure Lawful (preserving : Celltype → Celltype → Bool) : Prop where
  bare (checksum : Checksum) : E.value (E.bare checksum) = some checksum
  nested (input : E.Expression) (path : Path) (celltype targetType : Celltype) :
    E.value (E.nested input path celltype targetType) =
      (E.value input).bind (E.apply path celltype targetType)
  dummy (celltype : Celltype) (checksum : Checksum) : E.apply [] celltype celltype checksum = some checksum
  preserves {celltype targetType : Celltype} (h : preserving celltype targetType = true)
    (checksum : Checksum) : E.apply [] celltype targetType checksum = some checksum
  composes {celltype : Celltype} (h : celltype.isDeep = false) {p q : Path} (hp : p ≠ []) (hq : q ≠ [])
    (checksum : Checksum) : E.apply (p ++ q) celltype celltype checksum =
      (E.apply p celltype celltype checksum).bind (E.apply q celltype celltype)
  converts {celltype : Celltype} (h : celltype.isDeep = false) (targetType : Celltype) {p : Path}
    (hp : p ≠ []) (checksum : Checksum) : E.apply p celltype targetType checksum =
      (E.apply p celltype celltype checksum).bind (E.apply [] celltype targetType)
  slices {celltype : Celltype} (h : celltype.isDeep = true) (targetType : Celltype) {k : Component}
    (hk : k.isSlice = true) (p : Path) (checksum : Checksum) :
    E.apply (k :: p) celltype targetType checksum = none

end ExpressionClass

end SeamlessWorkflow
