import SeamlessWorkflow.Context.Handles
import SeamlessWorkflow.Proofs.RecipeCelltypes
import SeamlessWorkflow.Proofs.WiringResults

/-!
# The celltype from which an edge is read

An edge records the celltype that its conversions end with, and its target reads what is delivered
from that celltype, or from that of the source node. A slot of a cell takes the recorded celltype also
where the recipe has none, and the celltype of the source node also for a member of a deep cell.
-/

namespace SeamlessWorkflow

/-! ## What an edge records -/

/-- The recorded celltype of a recipe with conversions is the one it ends with. The celltype of the
source does not matter then. -/
def EdgeRecipe.Records (recipe : EdgeRecipe) (localPath : Path) : Prop :=
  if recipe.conversion then recipe.conversionSteps ≠ [] ∧
    recipe.sourceCelltype = some (recipeCelltype .mixed localPath recipe.conversionSteps)
  else recipe.conversionSteps = []

instance (recipe : EdgeRecipe) (localPath : Path) : Decidable (recipe.Records localPath) := by
  unfold EdgeRecipe.Records
  infer_instance

/-- An end point with conversions has the celltype that they end with. -/
def BoundEndpoint.Formed (ep : BoundEndpoint) : Prop := ep.recipe.Records ep.localPath

instance (ep : BoundEndpoint) : Decidable ep.Formed :=
  inferInstanceAs (Decidable (ep.recipe.Records _))

namespace CellHandle

/-- The conversions of a handle are in the order of their positions, which are in its path. -/
structure InOrder (handle : CellHandle) : Prop where
  converts : handle.conversion = true ↔ handle.conversionSteps ≠ []
  sorted : handle.conversionSteps.Pairwise fun a b => a.1 ≤ b.1
  inside : ∀ step ∈ handle.conversionSteps, step.1 ≤ handle.localPath.length

theorem Made.inOrder {handle : CellHandle} (h : handle.Made) : handle.InOrder := by
  induction h with
  | bare path readonly => exact ⟨by simp, List.Pairwise.nil, by simp⟩
  | @item handle k _ ih =>
    refine ⟨ih.converts, ih.sorted, fun step hs => ?_⟩
    have := ih.inside step hs
    simp only [CellHandle.item, List.length_append, List.length_singleton]
    omega
  | @asCelltype handle celltype _ ih =>
    refine ⟨by simp [CellHandle.asCelltype], ?_, fun step hs => ?_⟩
    · refine List.pairwise_append.mpr ⟨ih.sorted, List.pairwise_singleton _ _, ?_⟩
      intro a ha b hb
      rw [List.mem_singleton.mp hb]
      exact ih.inside a ha
    · rcases List.mem_append.mp hs with hold | hnew
      · exact ih.inside step hold
      · rw [List.mem_singleton.mp hnew]
        exact le_refl (handle.localPath.length : Int)

theorem foldl_linksFrom (localPath : Path) (steps : List ConversionStep) :
    ∀ (current : Celltype) (index : Nat), index ≤ localPath.length →
      (linksFrom localPath steps index).foldl (fun current link =>
        match link with
        | .step k => memberCelltype current k
        | .conversion celltype => celltype) current = stepsCelltype localPath steps current index := by
  induction steps with
  | nil =>
    intro current index _
    unfold linksFrom stepsCelltype projectedCelltype
    rw [List.foldl_map]
  | cons step steps ih =>
    intro current index hindex
    obtain ⟨position, converted⟩ := step
    have hnext : max index (min position.toNat localPath.length) =
        min (max position.toNat index) localPath.length := by omega
    unfold linksFrom stepsCelltype
    dsimp only
    rw [List.foldl_append, List.foldl_cons, hnext]
    exact ih converted _ (Nat.min_le_right _ _)

/-- The end point of a handle is formed, whatever the celltype of its node is. -/
theorem Made.endpoint_formed {handle : CellHandle} (h : handle.Made) (g : ContextGraph) :
    (handle.endpoint g).Formed := by
  have ho := h.inOrder
  have hcelltype : ∀ parent, handle.celltype parent =
      recipeCelltype parent handle.localPath handle.conversionSteps := by
    intro parent
    unfold recipeCelltype sortedSteps
    rw [List.Pairwise.insertionSort_eq ho.sorted]
    exact foldl_linksFrom handle.localPath handle.conversionSteps parent 0 (Nat.zero_le _)
  show (if handle.conversion then _ else _)
  cases hc : handle.conversion with
  | true =>
    have hsteps := ho.converts.mp hc
    refine ⟨hsteps, congrArg some ?_⟩
    rw [hcelltype]
    exact recipeCelltype_congr hsteps _ _ _
  | false =>
    by_contra hsteps
    exact absurd (ho.converts.mpr hsteps) (by simp [hc])

end CellHandle

end SeamlessWorkflow
