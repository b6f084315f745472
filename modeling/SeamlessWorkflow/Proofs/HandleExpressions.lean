import SeamlessWorkflow.Proofs.LinkFusion
import SeamlessWorkflow.Proofs.DeliveredCelltypes
import SeamlessWorkflow.Context.System

/-!
# What a handle evaluates to

The Expression of a handle is built link by link. It evaluates to what the anonymous links of the same
recipe do, and so do the runs that an edge evaluates.
-/

namespace SeamlessWorkflow

open CellHandle

namespace ExpressionClass

variable {E : ExpressionClass} {preserving : Celltype → Celltype → Bool}

/-! ## Handles -/

/-- The links of a handle, evaluated one by one. -/
def evaluateHandle (E : ExpressionClass) : Celltype → List HandleLink → Checksum → Option Checksum
  | _, [], checksum => some checksum
  | current, .step k :: links, checksum =>
    (E.apply [k] current (memberCelltype current k) checksum).bind
      (evaluateHandle E (memberCelltype current k) links)
  | current, .conversion celltype :: links, checksum =>
    (E.apply [] current celltype checksum).bind (evaluateHandle E celltype links)

theorem value_expressionFrom (hE : E.Lawful preserving) : ∀ (links : List HandleLink)
    (input : E.Expression) (current : Celltype),
      E.value (E.expressionFrom links input current) =
        (E.value input).bind (E.evaluateHandle current links)
  | [], input, _ => (Option.bind_fun_some (E.value input)).symm
  | .step k :: links, input, current => by
    show E.value (E.expressionFrom links (E.nested input [k] current (memberCelltype current k))
      (memberCelltype current k)) = _
    rw [value_expressionFrom hE links, hE.nested, Option.bind_assoc]
    rfl
  | .conversion celltype :: links, input, current => by
    show E.value (if celltype ≠ current then
        E.expressionFrom links (E.nested input [] current celltype) celltype
      else E.expressionFrom links input current) =
        (E.value input).bind fun c => (E.apply [] current celltype c).bind (E.evaluateHandle celltype links)
    by_cases hsame : celltype = current
    · -- the conversion is a dummy, and no Expression is built for it
      subst hsame
      rw [if_neg (fun h => h rfl), value_expressionFrom hE links]
      congr 1
      funext c
      rw [hE.dummy]
      rfl
    · rw [if_pos hsame, value_expressionFrom hE links, hE.nested, Option.bind_assoc]

/-- The celltype after the links of a handle. -/
def handleCelltype (current : Celltype) (links : List HandleLink) : Celltype :=
  links.foldl (fun current link =>
    match link with
    | .step k => memberCelltype current k
    | .conversion celltype => celltype) current

theorem evaluateHandle_append : ∀ (links links' : List HandleLink) (current : Celltype)
    (checksum : Checksum), E.evaluateHandle current (links ++ links') checksum =
      (E.evaluateHandle current links checksum).bind
        (E.evaluateHandle (handleCelltype current links) links')
  | [], _, _, _ => rfl
  | .step k :: links, links', current, checksum => by
    have ih := evaluateHandle_append links links' (memberCelltype current k)
    show (E.apply [k] current _ checksum).bind (E.evaluateHandle _ (links ++ links')) =
      ((E.apply [k] current _ checksum).bind (E.evaluateHandle _ links)).bind _
    rw [Option.bind_assoc, funext ih]
    rfl
  | .conversion celltype :: links, links', current, checksum => by
    have ih := evaluateHandle_append links links' celltype
    show (E.apply [] current celltype checksum).bind (E.evaluateHandle _ (links ++ links')) =
      ((E.apply [] current celltype checksum).bind (E.evaluateHandle _ links)).bind _
    rw [Option.bind_assoc, funext ih]
    rfl

theorem evaluateLinks_append : ∀ (links links' : List Link) (current : Celltype) (checksum : Checksum),
    E.evaluateLinks current (links ++ links') checksum =
      (E.evaluateLinks current links checksum).bind
        (E.evaluateLinks (linksCelltype current links) links')
  | [], _, _, _ => rfl
  | (celltype, path) :: links, links', current, checksum => by
    have ih := evaluateLinks_append links links' celltype
    rw [linksCelltype_cons]
    show (E.project path current celltype checksum).bind (E.evaluateLinks celltype (links ++ links')) =
      ((E.project path current celltype checksum).bind (E.evaluateLinks celltype links)).bind _
    rw [Option.bind_assoc, funext ih]

/-- Steps below a celltype that is not deep are one path. -/
theorem evaluateHandle_steps (hE : E.Lawful preserving) {current : Celltype}
    (h : current.isDeep = false) : ∀ {path : Path}, path ≠ [] →
      E.evaluateHandle current (path.map .step) = E.apply path current current
  | [k], _ => by
    funext checksum
    show (E.apply [k] current (memberCelltype current k) checksum).bind some = _
    rw [Option.bind_fun_some, memberCelltype_of_not_deep h]
  | k :: k' :: rest, _ => by
    funext checksum
    have ih := evaluateHandle_steps hE h (List.cons_ne_nil k' rest)
    show (E.apply [k] current (memberCelltype current k) checksum).bind
      (E.evaluateHandle (memberCelltype current k) ((k' :: rest).map .step)) = _
    rw [memberCelltype_of_not_deep h, ih]
    exact (hE.composes h (List.cons_ne_nil k []) (List.cons_ne_nil k' rest) checksum).symm

theorem project_step (current : Celltype) (k : Component) :
    E.project [k] current (projectedCelltype current [k]) =
      E.apply [k] current (memberCelltype current k) := by
  funext checksum
  have hbarrier : deepBarrier current [k] (projectedCelltype current [k]) = none := by
    unfold deepBarrier
    dsimp only
    split
    · rfl
    · split
      · rfl
      · rw [if_pos (by simp)]
  unfold project
  rw [hbarrier]
  rfl

/-- The steps of one segment of a path evaluate to what its links do. -/
theorem evaluateHandle_segment (hE : E.Lawful preserving) (current : Celltype) (path : Path) :
    E.evaluateHandle current (path.map .step) = E.evaluateLinks current (pathLinks current path) := by
  have hone : ∀ (celltype : Celltype), celltype.isDeep = false → ∀ {p : Path}, p ≠ [] →
      E.evaluateHandle celltype (p.map .step) =
        E.evaluateLinks celltype [(projectedCelltype celltype p, p)] := by
    intro celltype hshallow p hp
    rw [evaluateHandle_steps hE hshallow hp, projectedCelltype_of_not_deep hshallow]
    funext checksum
    show _ = (E.project p celltype celltype checksum).bind some
    rw [Option.bind_fun_some, project_of_not_deep hshallow]
  match path with
  | [] => rfl
  | [k] =>
    funext checksum
    show (E.apply [k] current (memberCelltype current k) checksum).bind some =
      (E.project [k] current (projectedCelltype current [k]) checksum).bind some
    rw [project_step]
  | k :: k' :: rest =>
    have hrest : k' :: rest ≠ [] := List.cons_ne_nil k' rest
    show _ = E.evaluateLinks current (if current.isDeep then
      [(projectedCelltype current [k], [k]),
        (projectedCelltype (projectedCelltype current [k]) (k' :: rest), k' :: rest)]
      else [(projectedCelltype current (k :: k' :: rest), k :: k' :: rest)])
    by_cases hdeep : current.isDeep = true
    · rw [if_pos hdeep]
      funext checksum
      show (E.apply [k] current (memberCelltype current k) checksum).bind
          (E.evaluateHandle (memberCelltype current k) ((k' :: rest).map .step)) =
        (E.project [k] current (projectedCelltype current [k]) checksum).bind
          (E.evaluateLinks (projectedCelltype current [k]) _)
      rw [project_step]
      by_cases hslice : k.isSlice = true
      · rw [hE.slices hdeep _ hslice]
        rfl
      · have hmember : (memberCelltype current k).isDeep = false := by
          unfold memberCelltype
          rw [if_neg hslice]
          cases current <;> simp_all [Celltype.isDeep]
        rw [hone (memberCelltype current k) hmember hrest]
        rfl
    · rw [if_neg hdeep]
      exact hone current (by simpa using hdeep) (List.cons_ne_nil k (k' :: rest))

theorem handleCelltype_steps (current : Celltype) (path : Path) :
    handleCelltype current (path.map .step) = projectedCelltype current path := by
  unfold handleCelltype projectedCelltype
  rw [List.foldl_map]

/-- The links of a handle in syntax order evaluate to what the anonymous links do, from any position. -/
theorem evaluateHandle_linksFrom (hE : E.Lawful preserving) (localPath : Path) :
    ∀ (steps : List ConversionStep) (current : Celltype) {index : Nat}, index ≤ localPath.length →
      E.evaluateHandle current (linksFrom localPath steps index) =
        E.evaluateLinks current (anonymousLinksFrom localPath steps current index)
  | [], current, _, _ => evaluateHandle_segment hE current _
  | (position, converted) :: steps, current, index, hindex => by
    have hnext : max index (min position.toNat localPath.length) =
        min (max position.toNat index) localPath.length := by omega
    funext checksum
    unfold linksFrom anonymousLinksFrom
    dsimp only
    rw [hnext, evaluateHandle_append, evaluateLinks_append, evaluateHandle_segment hE]
    congr 1
    funext c
    have ih := evaluateHandle_linksFrom hE localPath steps converted
      (Nat.min_le_right (max position.toNat index) localPath.length)
    rw [handleCelltype_steps, linksCelltype_pathLinks]
    show (E.apply [] _ converted c).bind _ = (E.project [] _ converted c).bind _
    rw [ih]
    rfl

/-- The Expression of a handle evaluates to what the anonymous links of its recipe do. -/
theorem value_handleExpression (hE : E.Lawful preserving) {handle : CellHandle} (h : handle.Made)
    (parentCelltype : Celltype) (checksum : Checksum) :
    E.value (E.handleExpression handle checksum parentCelltype) =
      E.evaluateLinks parentCelltype
        (anonymousLinks parentCelltype handle.localPath handle.conversionSteps) checksum := by
  unfold handleExpression anonymousLinks sortedSteps
  rw [value_expressionFrom hE, hE.bare, List.Pairwise.insertionSort_eq h.inOrder.sorted]
  unfold CellHandle.links
  rw [evaluateHandle_linksFrom hE handle.localPath _ _ (Nat.zero_le _)]
  rfl

end ExpressionClass

theorem CellHandle.Made.celltype_eq {handle : CellHandle} (h : handle.Made) (parent : Celltype) :
    handle.celltype parent =
      linksCelltype parent (anonymousLinks parent handle.localPath handle.conversionSteps) := by
  rw [linksCelltype_anonymousLinks]
  unfold recipeCelltype sortedSteps
  rw [List.Pairwise.insertionSort_eq h.inOrder.sorted]
  exact foldl_linksFrom handle.localPath handle.conversionSteps parent 0 (Nat.zero_le _)

/-! ## The runs of an edge -/

/-- The known results of Expressions are what the Expressions evaluate to. -/
def View.Agrees (v : View) (E : ExpressionClass) : Prop :=
  ∀ checksum path celltype targetType scratch materialize result,
    v.facts.lookup (.expression checksum path celltype targetType none none scratch materialize) =
      some (.result result) → E.apply path celltype targetType checksum = some result

section Agreement

variable {env : Substrate} {v : View} {E : ExpressionClass}

theorem expressionStep_agrees (h : v.Agrees E) {checksum c : Checksum} {path : Path}
    {celltype targetType : Celltype} {scratch materialize : Bool}
    (hc : (expressionStep env v checksum path celltype targetType
      { scratch, materialize }).value.checksum = some c) :
    E.apply path celltype targetType checksum = some c := by
  unfold expressionStep at hc
  split at hc
  · cases hc
  · unfold demand at hc
    dsimp only at hc
    split at hc
    · rename_i result hfact
      cases hc
      exact h _ _ _ _ _ _ _ hfact
    · cases hc
    · cases hc

theorem projection_agrees (h : v.Agrees E) {checksum c : Checksum} {path : Path}
    {celltype targetType : Celltype} {scratch materialize : Bool}
    (hs : (projection env v checksum path celltype targetType
      { scratch, materialize }).value.state = .complete)
    (hc : (projection env v checksum path celltype targetType
      { scratch, materialize }).value.checksum = some c) :
    E.project path celltype targetType checksum = some c := by
  unfold projection at hs hc
  unfold ExpressionClass.project
  cases hbarrier : deepBarrier celltype path targetType with
  | none =>
    rw [hbarrier] at hc
    exact expressionStep_agrees h hc
  | some member =>
    simp only [hbarrier, Evaluated.value_bind] at hs hc
    split at hc
    · rename_i child hstate hchild
      have hstep : E.apply (path.take 1) celltype member checksum = some child :=
        expressionStep_agrees h hchild
      show (E.apply (path.take 1) celltype member checksum).bind _ = some c
      rw [hstep]
      exact expressionStep_agrees h hc
    · rename_i hother
      split at hs
      · rename_i hstep hchild
        exact absurd hchild (hother _ hstep)
      · exact absurd hc (hother c hs)

/-- What the runs of a recipe lead to is what they evaluate to. -/
theorem evaluateRuns_agrees (h : v.Agrees E) (edge : Edge) (sourceNode : NodePath) (links : List Link)
    (chainOffset : Nat) (scratch materialize : Bool) (runs : List Run) :
    ∀ {checksum c : Checksum} {e : Option Error}, (evaluateRuns env v edge sourceNode links chainOffset
      scratch materialize runs checksum).value = ⟨.complete, some c, e⟩ →
        E.evaluateRuns runs checksum = some c := by
  induction runs with
  | nil =>
    intro checksum c e hv
    obtain ⟨-, hc, -⟩ := SourceResult.mk.inj hv
    exact hc
  | cons run runs ih =>
    intro checksum c e hv
    unfold evaluateRuns at hv
    dsimp only at hv
    split at hv
    · cases hv
    · rw [Evaluated.value_bind] at hv
      split at hv
      · rename_i child hstate hchild
        have hrun : E.project run.path run.inputCelltype run.celltype checksum = some child :=
          projection_agrees h hstate hchild
        show (E.project run.path run.inputCelltype run.celltype checksum).bind _ = some c
        rw [hrun]
        split at hv
        · rename_i hlast
          obtain rfl : runs = [] := of_decide_eq_true hlast
          obtain ⟨-, hc, -⟩ := SourceResult.mk.inj hv
          exact hc
        · rw [Evaluated.value_bind] at hv
          exact ih hv
      · obtain ⟨-, hc, -⟩ := SourceResult.mk.inj hv
        cases hc

end Agreement

/-! ## Fusion -/

/-- What it is that grouping the links of a recipe into runs preserves its meaning: the runs cut the
links, and they lead to the same checksum and celltype as the links do, in an edge and in a handle. -/
structure FusionPreservesMeaning (env : Substrate) (E : ExpressionClass) (rootType : Celltype)
    (localPath : Path) (steps : List ConversionStep) (links : List Link) (runs : List Run) : Prop where
  cuts : Cuts links 0 runs
  increasing : (runs.map Run.last).Pairwise (· < ·)
  final : links ≠ [] → (runs.getLast?).map Run.last = some (links.length - 1)
  celltype : runsCelltype rootType runs = linksCelltype rootType links
  value : ∀ checksum, E.evaluateRuns runs checksum = E.evaluateLinks rootType links checksum
  /-- The runs as an edge evaluates them, from the results that are known. -/
  edge : ∀ (v : View) (edge : Edge) (sourceNode : NodePath) (chainOffset : Nat)
    (scratch materialize : Bool) (checksum c : Checksum) (e : Option Error), v.Agrees E →
      (evaluateRuns env v edge sourceNode links chainOffset scratch materialize runs checksum).value =
        ⟨.complete, some c, e⟩ → E.evaluateLinks rootType links checksum = some c
  handle : ∀ handle : CellHandle, handle.Made → handle.localPath = localPath →
    handle.conversionSteps = steps →
      (∀ checksum, E.value (E.handleExpression handle checksum rootType) =
        E.evaluateLinks rootType links checksum) ∧
      handle.celltype rootType = linksCelltype rootType links

theorem fusibleRuns_preserveMeaning (env : Substrate) (E : ExpressionClass)
    (hE : E.Lawful env.preserving) (rootType : Celltype) (localPath : Path)
    (steps : List ConversionStep) :
    FusionPreservesMeaning env E rootType localPath steps (anonymousLinks rootType localPath steps)
      (fusibleRuns env.preserving rootType (anonymousLinks rootType localPath steps)) := by
  have hwell : WellTyped rootType (anonymousLinks rootType localPath steps) :=
    anonymousLinksFrom_wellTyped ..
  have hnone : ∀ run ∈ (none : Option OpenRun), run.Open rootType 0 := fun run hrun => nomatch hrun
  have hleft : LinksLeft (anonymousLinks rootType localPath steps)
      (anonymousLinks rootType localPath steps) rootType 0 0 none :=
    ⟨rfl, Nat.zero_le _, fun _ => rfl, fun run hrun => (nomatch hrun)⟩
  have hcuts : Cuts (anonymousLinks rootType localPath steps) 0
      (fusibleRuns env.preserving rootType (anonymousLinks rootType localPath steps)) :=
    fusibleRunsFrom_cuts _ hwell hleft
  have hvalue := ExpressionClass.evaluateRuns_fusibleRunsFrom hE hwell hnone
  refine ⟨hcuts, hcuts.increasing, fun hlinks => ?_, ?_, hvalue, ?_, ?_⟩
  · exact hcuts.final (List.length_pos_of_ne_nil hlinks)
  · exact runsCelltype_fusibleRuns ..
  · intro v edge sourceNode chainOffset scratch materialize checksum c e hagrees hedge
    have hruns := evaluateRuns_agrees hagrees edge sourceNode _ _ _ _ _ hedge
    exact (hvalue checksum).symm.trans hruns
  · intro handle hmade hlocal hsteps
    subst hlocal hsteps
    exact ⟨ExpressionClass.value_handleExpression hE hmade rootType, hmade.celltype_eq rootType⟩

/-- A class of Expressions over numbers: a path counts its components, and a conversion that does not
preserve the checksum doubles it. -/
def countingClass (preserving : Celltype → Celltype → Bool) : ExpressionClass where
  Expression := Option Checksum
  bare := some
  nested input path celltype targetType := input.bind fun checksum =>
    let after := projectedCelltype celltype path
    let read : Checksum := ⟨checksum.value + path.length⟩
    if celltype.isDeep && (path.head?.map Component.isSlice).getD false then none
    else if after = targetType ∨ preserving after targetType then some read
    else some ⟨2 * read.value + 1⟩
  value := id

theorem countingClass_lawful (preserving : Celltype → Celltype → Bool) :
    (countingClass preserving).Lawful preserving where
  bare _ := rfl
  nested _ _ _ _ := rfl
  dummy celltype checksum := by
    simp [ExpressionClass.apply, countingClass]
  preserves hpreserving checksum := by
    simp [ExpressionClass.apply, countingClass, hpreserving]
  composes hshallow p q _ _ checksum := by
    simp only [ExpressionClass.apply, countingClass, Option.bind_some, hshallow, Bool.false_and,
      projectedCelltype_of_not_deep hshallow, Bool.false_eq_true, if_false, true_or, if_true, id,
      List.length_append, Nat.add_assoc]
  converts hshallow targetType p _ checksum := by
    simp only [ExpressionClass.apply, countingClass, Option.bind_some, hshallow, Bool.false_and,
      projectedCelltype_of_not_deep hshallow, Bool.false_eq_true, if_false, true_or, if_true, id,
      List.length_nil, Nat.add_zero]
  slices hdeep targetType k hk p checksum := by
    simp [ExpressionClass.apply, countingClass, hdeep, hk]

/-- A text is converted, read, converted back and read again. -/
theorem fusibleRuns_preserveMeaning_text :
    FusionPreservesMeaning Substrate.fixed (countingClass Substrate.fixed.preserving) .text
        [.key "a", .key "b", .slice none none none] [(0, .plain), (2, .text)]
        [(.plain, []), (.plain, [.key "a", .key "b"]), (.text, []), (.text, [.slice none none none])]
        [⟨.text, [], .plain, 0⟩, ⟨.plain, [.key "a", .key "b"], .text, 2⟩,
          ⟨.text, [.slice none none none], .text, 3⟩] ∧
      (countingClass Substrate.fixed.preserving).evaluateRuns
        [⟨.text, [], .plain, 0⟩, ⟨.plain, [.key "a", .key "b"], .text, 2⟩,
          ⟨.text, [.slice none none none], .text, 3⟩] ⟨5⟩ = some ⟨28⟩ := by
  have hfusion := fusibleRuns_preserveMeaning Substrate.fixed
    (countingClass Substrate.fixed.preserving) (countingClass_lawful _) .text
    [.key "a", .key "b", .slice none none none] [(0, .plain), (2, .text)]
  exact ⟨hfusion, by decide⟩

end SeamlessWorkflow
