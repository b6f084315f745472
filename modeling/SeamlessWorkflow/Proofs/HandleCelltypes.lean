import SeamlessWorkflow.Proofs.HandleExpressions

/-!
# The celltype of a handle

The celltype that a handle reports, that its anonymous links end with, that they end with behind a deep
step, and that the Expression of its recipe reaches before its last conversion, are computed by four
folds over the path and the conversions. All of them are the celltype that the recipe ends with.
-/

namespace SeamlessWorkflow

variable {E : ExpressionClass}

/-- The Expression of a recipe reaches the celltype that the recipe ends with. An empty segment leaves
the position where it is, which is where the recipe is then as well. -/
theorem celltype_conversionExpressionFrom (checksum : Checksum) (localPath : Path) :
    ∀ (steps : List ConversionStep) (current : Option E.Expression) (currentType : Celltype)
      {index : Nat}, index ≤ localPath.length →
        (E.conversionExpressionFrom checksum localPath steps current currentType index).2 =
          stepsCelltype localPath steps currentType index
  | [], current, currentType, index, _ => by
    unfold ExpressionClass.conversionExpressionFrom stepsCelltype
    dsimp only
    split
    · rfl
    · rename_i hsegment
      rw [not_not.mp hsegment]
      rfl
  | (stepPosition, converted) :: steps, current, currentType, index, hindex => by
    have hnext : (if (localPath.take (min stepPosition.toNat localPath.length)).drop index ≠ [] then
        min stepPosition.toNat localPath.length else index) =
          min (max stepPosition.toNat index) localPath.length := by
      by_cases hsegment : min stepPosition.toNat localPath.length ≤ index
      · have hnil : (localPath.take (min stepPosition.toNat localPath.length)).drop index = [] :=
          List.drop_eq_nil_of_le (by rw [List.length_take]; omega)
        rw [if_neg (not_not.mpr hnil)]
        omega
      · have hne : (localPath.take (min stepPosition.toNat localPath.length)).drop index ≠ [] := by
          rw [ne_eq, List.drop_eq_nil_iff, List.length_take]
          omega
        rw [if_pos hne]
        omega
    have hle : min (max stepPosition.toNat index) localPath.length ≤ localPath.length :=
      Nat.min_le_right _ _
    unfold ExpressionClass.conversionExpressionFrom stepsCelltype
    dsimp only
    rw [hnext]
    split
    · exact celltype_conversionExpressionFrom checksum localPath steps _ converted hle
    · rename_i hsame
      rw [← not_not.mp hsame]
      exact celltype_conversionExpressionFrom checksum localPath steps _ converted hle

/-- The celltype of a handle is the one that its recipe ends with. -/
theorem CellHandle.Made.celltype_eq_recipe {handle : CellHandle} (h : handle.Made) (root : Celltype) :
    handle.celltype root = recipeCelltype root handle.localPath handle.conversionSteps := by
  rw [h.celltype_eq root, linksCelltype_anonymousLinks]

/-- The celltype of a handle over a root is what its last anonymous link has, or the root when there is
none, what the links behind its deep step end with, and what the Expression of its recipe reaches before
its last conversion. -/
structure CellHandle.CelltypesAgree (handle : CellHandle) (root : Celltype) : Prop where
  links : ((anonymousLinks root handle.localPath handle.conversionSteps).getLast?.map Prod.fst).getD
    root = handle.celltype root
  split : ∀ deep, splitDeepStep root handle.localPath handle.conversionSteps = some deep →
    ((anonymousLinks deep.member deep.restPath deep.restSteps).getLast?.map Prod.fst).getD
      deep.member = handle.celltype root
  built : ∀ (E : ExpressionClass) (checksum : Checksum),
    (E.conversionExpressionFrom checksum handle.localPath (sortedSteps handle.conversionSteps) none
      root 0).2 = handle.celltype root

theorem CellHandle.Made.celltypesAgree {handle : CellHandle} (h : handle.Made) (root : Celltype) :
    handle.CelltypesAgree root where
  links := (h.celltype_eq root).symm
  split deep hsplit := by
    have hrest : linksCelltype deep.member (anonymousLinks deep.member deep.restPath deep.restSteps) =
        recipeCelltype root handle.localPath handle.conversionSteps := by
      rw [linksCelltype_anonymousLinks, recipeCelltype_split hsplit]
    rw [h.celltype_eq_recipe]
    exact hrest
  built E checksum := by
    rw [celltype_conversionExpressionFrom checksum _ _ none root (Nat.zero_le _), h.celltype_eq_recipe]
    rfl

/-- A file of a folder is read as plain data, and an item of it as a text. -/
theorem CellHandle.Made.celltypesAgree_folder :
    CellHandle.CelltypesAgree
      (((((CellHandle.mk [.key "a"] [] false false false []).item (.key "x")).asCelltype .plain).item
        (.index 0)).asCelltype .text) .folder :=
  CellHandle.Made.celltypesAgree
    (((((CellHandle.Made.bare [.key "a"] false).item (.key "x")).asCelltype .plain).item
      (.index 0)).asCelltype .text) .folder

end SeamlessWorkflow
