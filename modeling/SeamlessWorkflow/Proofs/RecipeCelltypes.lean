import SeamlessWorkflow.Proofs.NodeRecords

/-!
# The celltype of what an edge delivers

A recipe ends with a celltype of its own: that of its last conversion, followed by the rest of the
path. The links of the recipe, the runs that are made of them, and the recipe that is left after a deep
step all end with it.
-/

namespace SeamlessWorkflow

/-! ## Links -/

/-- The celltype with which the loop of `anonymous_links` ends. -/
def stepsCelltype (localPath : Path) : List ConversionStep → Celltype → Nat → Celltype
  | [], current, position => projectedCelltype current (localPath.drop position)
  | (stepPosition, converted) :: steps, _, position =>
    stepsCelltype localPath steps converted (min (max stepPosition.toNat position) localPath.length)

/-- The celltype with which a recipe ends. -/
def recipeCelltype (rootType : Celltype) (localPath : Path) (steps : List ConversionStep) : Celltype :=
  stepsCelltype localPath (sortedSteps steps) rootType 0

theorem linksCelltype_cons (current : Celltype) (link : Link) (links : List Link) :
    linksCelltype current (link :: links) = linksCelltype link.1 links := by
  unfold linksCelltype
  cases links with
  | nil => rfl
  | cons next links => rw [List.getLast?_cons_cons]; cases h : (next :: links).getLast? <;> simp_all

theorem linksCelltype_append (current : Celltype) (a b : List Link) :
    linksCelltype current (a ++ b) = linksCelltype (linksCelltype current a) b := by
  induction a generalizing current with
  | nil => rfl
  | cons link a ih => rw [List.cons_append, linksCelltype_cons, linksCelltype_cons, ih]

/-- The links of a path end with the celltype after the path. -/
theorem linksCelltype_pathLinks (current : Celltype) (path : Path) :
    linksCelltype current (pathLinks current path) = projectedCelltype current path := by
  match path with
  | [] => rfl
  | [k] => rfl
  | k :: k' :: rest =>
    show linksCelltype current (if current.isDeep then _ else _) = _
    split
    · rw [linksCelltype_cons, linksCelltype_cons]
      rfl
    · rw [linksCelltype_cons]
      rfl

theorem linksCelltype_from (localPath : Path) (steps : List ConversionStep) :
    ∀ current position, linksCelltype current (anonymousLinksFrom localPath steps current position) =
      stepsCelltype localPath steps current position := by
  induction steps with
  | nil => exact fun current position => linksCelltype_pathLinks current _
  | cons step steps ih =>
    intro current position
    obtain ⟨stepPosition, converted⟩ := step
    unfold anonymousLinksFrom stepsCelltype
    dsimp only
    rw [linksCelltype_append, linksCelltype_cons, ih]

theorem linksCelltype_anonymousLinks (rootType : Celltype) (localPath : Path)
    (steps : List ConversionStep) :
    linksCelltype rootType (anonymousLinks rootType localPath steps) =
      recipeCelltype rootType localPath steps := linksCelltype_from localPath _ rootType 0

/-- A conversion makes the celltype of the source irrelevant. -/
theorem recipeCelltype_congr {steps : List ConversionStep} (h : steps ≠ []) (a b : Celltype)
    (localPath : Path) : recipeCelltype a localPath steps = recipeCelltype b localPath steps := by
  unfold recipeCelltype
  cases hs : sortedSteps steps with
  | nil =>
    have hlength : (sortedSteps steps).length = steps.length := List.length_insertionSort _ _
    rw [hs] at hlength
    exact absurd (List.eq_nil_of_length_eq_zero hlength.symm) h
  | cons step sorted => rfl

/-! ## Runs -/

/-- The celltype after a list of runs. -/
def runsCelltype (current : Celltype) (runs : List Run) : Celltype :=
  runs.foldl (fun _ run => run.celltype) current

theorem runsCelltype_append (current : Celltype) (a b : List Run) :
    runsCelltype current (a ++ b) = runsCelltype (runsCelltype current a) b := List.foldl_append

/-- The runs end with the celltype of the last link. An open run ends where the links have got to. -/
theorem runsCelltype_from (preserving : Celltype → Celltype → Bool) (links : List Link) :
    ∀ (before current : Celltype) (index : Nat) (openRun : Option OpenRun),
      (∀ run ∈ openRun, run.celltype = current) → (openRun = none → before = current) →
      runsCelltype before (fusibleRunsFrom preserving links current index openRun) =
        linksCelltype current links := by
  induction links with
  | nil =>
    intro before current index openRun hopen hnone
    cases openRun with
    | none => exact hnone rfl
    | some run => exact hopen run rfl
  | cons link links ih =>
    intro before current index openRun hopen hnone
    obtain ⟨celltype, path⟩ := link
    rw [linksCelltype_cons]
    have hnext : ∀ (before : Celltype) (next : OpenRun), next.celltype = celltype →
        runsCelltype before (fusibleRunsFrom preserving links celltype (index + 1) (some next)) =
          linksCelltype celltype links := by
      intro before next hc
      refine ih before celltype (index + 1) (some next) (fun run hrun => ?_) fun h => by cases h
      obtain rfl := Option.some.inj hrun
      exact hc
    unfold fusibleRunsFrom
    split
    · -- a deep link is a run of its own
      rw [runsCelltype_append]
      exact ih celltype celltype (index + 1) none (fun _ h => by cases h) fun _ => rfl
    · split
      · split
        · exact hnext before _ rfl
        · split
          · exact hnext before _ rfl
          · split
            · exact hnext before _ rfl
            · exact hnext _ _ rfl
      · split
        · exact hnext before _ rfl
        · rename_i run
          split
          · rename_i hsame
            refine hnext before _ ?_
            exact (hopen run rfl).trans hsame.symm
          · split
            · exact hnext _ _ rfl
            · exact hnext before _ rfl

theorem runsCelltype_fusibleRuns (preserving : Celltype → Celltype → Bool) (current : Celltype)
    (links : List Link) :
    runsCelltype current (fusibleRuns preserving current links) = linksCelltype current links :=
  runsCelltype_from preserving links current current 0 none (fun _ h => by cases h) fun _ => rfl

/-! ## Deep steps -/

instance : Std.Total fun a b : ConversionStep => a.1 ≤ b.1 := ⟨fun a b => le_total a.1 b.1⟩

instance : IsTrans ConversionStep fun a b => a.1 ≤ b.1 := ⟨fun _ _ _ => le_trans⟩

theorem pairwise_sortedSteps (steps : List ConversionStep) :
    (sortedSteps steps).Pairwise fun a b => a.1 ≤ b.1 := List.pairwise_insertionSort _ _

/-- Conversions in front of a path are made at its start. -/
theorem stepsCelltype_before (localPath : Path) (before after : List ConversionStep)
    (h : ∀ step ∈ before, step.1 ≤ 0) : ∀ current,
      stepsCelltype localPath (before ++ after) current 0 =
        stepsCelltype localPath after ((before.map Prod.snd).getLastD current) 0 := by
  induction before with
  | nil => exact fun _ => rfl
  | cons step before ih =>
    intro current
    obtain ⟨position, converted⟩ := step
    have hposition : position ≤ 0 := h (position, converted) (List.mem_cons_self ..)
    have hzero : min (max position.toNat 0) localPath.length = 0 := by
      rw [Int.toNat_of_nonpos hposition]
      simp
    show stepsCelltype localPath (before ++ after) converted
      (min (max position.toNat 0) localPath.length) = _
    rw [hzero, ih (fun s hs => h s (List.mem_cons_of_mem _ hs)) converted, List.map_cons,
      List.getLastD_cons]

/-- Conversions behind the first component of a path are those of the rest of the path. -/
theorem stepsCelltype_tail (k : Component) (rest : Path) (steps : List ConversionStep)
    (h : ∀ step ∈ steps, 0 < step.1) : ∀ current position,
      stepsCelltype (k :: rest) steps current (position + 1) =
        stepsCelltype rest (steps.map fun step => (step.1 - 1, step.2)) current position := by
  induction steps with
  | nil => exact fun _ _ => rfl
  | cons step steps ih =>
    intro current position
    obtain ⟨stepPosition, converted⟩ := step
    have hpositive : 0 < stepPosition := h (stepPosition, converted) (List.mem_cons_self ..)
    have hnext : min (max stepPosition.toNat (position + 1)) (k :: rest).length =
        min (max (stepPosition - 1).toNat position) rest.length + 1 := by
      rw [List.length_cons]
      omega
    rw [List.map_cons]
    unfold stepsCelltype
    rw [hnext]
    exact ih (fun s hs => h s (List.mem_cons_of_mem _ hs)) converted _

/-- The same from the start of the path. -/
theorem stepsCelltype_step (k : Component) (rest : Path) (steps : List ConversionStep)
    (h : ∀ step ∈ steps, 0 < step.1) (current : Celltype) :
    stepsCelltype (k :: rest) steps current 0 =
      stepsCelltype rest (steps.map fun step => (step.1 - 1, step.2))
        (projectedCelltype current [k]) 0 := by
  cases steps with
  | nil => rfl
  | cons step steps =>
    obtain ⟨stepPosition, converted⟩ := step
    have hpositive : 0 < stepPosition := h (stepPosition, converted) (List.mem_cons_self ..)
    have hnext : min (max stepPosition.toNat 0) (k :: rest).length =
        min (max (stepPosition - 1).toNat 0) rest.length + 1 := by
      rw [List.length_cons]
      omega
    rw [List.map_cons]
    unfold stepsCelltype
    rw [hnext]
    exact stepsCelltype_tail k rest steps (fun s hs => h s (List.mem_cons_of_mem _ hs)) converted _

/-- Sorted conversions are those in front of the path, then the others. -/
theorem sorted_split {steps : List ConversionStep} (h : steps.Pairwise fun a b => a.1 ≤ b.1) :
    steps = (steps.filter fun step => decide (step.1 ≤ 0)) ++
      steps.filter fun step => decide (0 < step.1) := by
  induction steps with
  | nil => rfl
  | cons step steps ih =>
    obtain ⟨hstep, hsteps⟩ := List.pairwise_cons.mp h
    by_cases hfront : step.1 ≤ 0
    · rw [List.filter_cons_of_pos (by simpa using hfront),
        List.filter_cons_of_neg (by simpa using hfront), List.cons_append, ← ih hsteps]
    · have hnone : (steps.filter fun step => decide (step.1 ≤ 0)) = [] := by
        refine List.filter_eq_nil_iff.mpr fun other hother => ?_
        have := hstep other hother
        simp only [decide_eq_true_eq]
        omega
      have hall : (steps.filter fun step => decide (0 < step.1)) = steps := by
        refine List.filter_eq_self.mpr fun other hother => ?_
        have := hstep other hother
        simp only [decide_eq_true_eq]
        omega
      rw [List.filter_cons_of_neg (by simpa using hfront),
        List.filter_cons_of_pos (by simpa using hfront), hnone, hall]
      rfl

/-- What is left of a recipe after its deep step ends as the recipe does. -/
theorem recipeCelltype_split {rootType : Celltype} {localPath : Path} {steps : List ConversionStep}
    {deep : DeepSplit} (h : splitDeepStep rootType localPath steps = some deep) :
    recipeCelltype deep.member deep.restPath deep.restSteps =
      recipeCelltype rootType localPath steps := by
  cases localPath with
  | nil => cases h
  | cons k rest =>
    unfold splitDeepStep at h
    dsimp only at h
    split at h
    · cases h
      dsimp only
      set before := (sortedSteps steps).filter fun step => decide (step.1 ≤ 0)
      set after := (sortedSteps steps).filter fun step => decide (0 < step.1)
      have hsplit : sortedSteps steps = before ++ after := sorted_split (pairwise_sortedSteps steps)
      have hafter : ∀ step ∈ after, 0 < step.1 := fun step hs =>
        of_decide_eq_true (List.mem_filter.mp hs).2
      have hrest : sortedSteps (after.map fun step => (step.1 - 1, step.2)) =
          after.map fun step => (step.1 - 1, step.2) := by
        refine List.Pairwise.insertionSort_eq (List.pairwise_map.mpr ?_)
        refine ((pairwise_sortedSteps steps).sublist List.filter_sublist).imp fun {a b} hab => ?_
        dsimp only
        omega
      unfold recipeCelltype
      rw [hrest, hsplit, stepsCelltype_before (k :: rest) before after fun step hs =>
        of_decide_eq_true (List.mem_filter.mp hs).2, stepsCelltype_step k rest after hafter]
    · cases h

end SeamlessWorkflow
