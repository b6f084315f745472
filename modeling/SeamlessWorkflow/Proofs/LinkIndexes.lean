import SeamlessWorkflow.Proofs.HandleExpressions

/-!
# Link indexes

A recipe with a deep step is evaluated in two parts, and each part in runs of several links. The index
under which an intermediate result is held counts the links of the whole recipe, so it is an index of
the chain that was recorded when the edge was added.
-/

namespace SeamlessWorkflow

/-! ## The links of a recipe with a deep step -/

/-- A step below a deep celltype is a link of its own. -/
theorem pathLinks_deep {current : Celltype} (hdeep : current.isDeep = true) {k : Component}
    (hk : k.isSlice = false) (rest : Path) :
    pathLinks current (k :: rest) =
      (projectedCelltype current [k], [k]) :: pathLinks (projectedCelltype current [k]) rest := by
  have hmember : (projectedCelltype current [k]).isDeep = false := by
    unfold projectedCelltype
    cases current <;> simp_all [memberCelltype, Celltype.isDeep]
  cases rest with
  | nil => rfl
  | cons k' rest =>
    show (if current.isDeep then _ else _) = _
    rw [if_pos hdeep]
    cases rest with
    | nil => rfl
    | cons k'' rest =>
      congr 1
      show _ = if (projectedCelltype current [k]).isDeep then _ else _
      rw [hmember]
      rfl

/-- Conversions in front of a path are links of their own. -/
theorem anonymousLinksFrom_before (localPath : Path) (before after : List ConversionStep)
    (h : ∀ step ∈ before, step.1 ≤ 0) : ∀ current,
      anonymousLinksFrom localPath (before ++ after) current 0 =
        (before.map Prod.snd).map (fun converted => (converted, [])) ++
          anonymousLinksFrom localPath after ((before.map Prod.snd).getLastD current) 0 := by
  induction before with
  | nil => exact fun _ => rfl
  | cons step before ih =>
    intro current
    obtain ⟨position, converted⟩ := step
    have hposition : position ≤ 0 := h (position, converted) (List.mem_cons_self ..)
    have hzero : min (max position.toNat 0) localPath.length = 0 := by
      rw [Int.toNat_of_nonpos hposition]
      simp
    have hnext := ih (fun s hs => h s (List.mem_cons_of_mem _ hs)) converted
    show pathLinks current ((localPath.take (min (max position.toNat 0) localPath.length)).drop 0) ++
      (converted, []) :: anonymousLinksFrom localPath (before ++ after) converted
        (min (max position.toNat 0) localPath.length) = _
    rw [hzero, hnext, List.map_cons, List.map_cons, List.getLastD_cons]
    rfl

/-- Behind the first component of a path the links are those of the rest of the path. -/
theorem anonymousLinksFrom_tail (k : Component) (rest : Path) (steps : List ConversionStep)
    (h : ∀ step ∈ steps, 0 < step.1) : ∀ current position,
      anonymousLinksFrom (k :: rest) steps current (position + 1) =
        anonymousLinksFrom rest (steps.map fun step => (step.1 - 1, step.2)) current position := by
  induction steps with
  | nil => exact fun _ _ => rfl
  | cons step steps ih =>
    intro current position
    obtain ⟨stepPosition, converted⟩ := step
    have hpositive : 0 < stepPosition := h (stepPosition, converted) (List.mem_cons_self ..)
    have hnext : min (max stepPosition.toNat (position + 1)) (k :: rest).length =
        min (max (stepPosition - 1).toNat position) rest.length + 1 := by
      rw [List.length_cons]
      omega
    rw [List.map_cons]
    unfold anonymousLinksFrom
    dsimp only
    rw [hnext, ih (fun s hs => h s (List.mem_cons_of_mem _ hs))]
    rfl

/-- A step below a deep celltype comes first, and then the links of the member. -/
theorem anonymousLinksFrom_step {current : Celltype} (hdeep : current.isDeep = true) {k : Component}
    (hk : k.isSlice = false) (rest : Path) (steps : List ConversionStep)
    (h : ∀ step ∈ steps, 0 < step.1) :
    anonymousLinksFrom (k :: rest) steps current 0 =
      (projectedCelltype current [k], [k]) ::
        anonymousLinksFrom rest (steps.map fun step => (step.1 - 1, step.2))
          (projectedCelltype current [k]) 0 := by
  cases steps with
  | nil => exact pathLinks_deep hdeep hk rest
  | cons step steps =>
    obtain ⟨stepPosition, converted⟩ := step
    have hpositive : 0 < stepPosition := h (stepPosition, converted) (List.mem_cons_self ..)
    have hnext : min (max stepPosition.toNat 0) (k :: rest).length =
        min (max (stepPosition - 1).toNat 0) rest.length + 1 := by
      rw [List.length_cons]
      omega
    rw [List.map_cons]
    unfold anonymousLinksFrom
    dsimp only
    rw [hnext, anonymousLinksFrom_tail k rest steps fun s hs => h s (List.mem_cons_of_mem _ hs)]
    show pathLinks current (k :: rest.take _) ++ _ = _
    rw [pathLinks_deep hdeep hk]
    rfl

/-- The celltype after conversions. -/
theorem linksCelltype_conversions (current : Celltype) (before : List Celltype) :
    linksCelltype current (before.map fun converted => (converted, [])) = before.getLastD current := by
  induction before generalizing current with
  | nil => rfl
  | cons converted before ih => rw [List.map_cons, linksCelltype_cons, ih, List.getLastD_cons]

/-- The parts of a recipe that is split at its deep step. -/
theorem splitDeepStep_cases {celltype : Celltype} {localPath : Path} {steps : List ConversionStep}
    {deep : DeepSplit} (h : splitDeepStep celltype localPath steps = some deep) :
    ∃ k, localPath = k :: deep.restPath ∧ ∃ before after : List ConversionStep,
      sortedSteps steps = before ++ after ∧ (∀ step ∈ before, step.1 ≤ 0) ∧
        (∀ step ∈ after, 0 < step.1) ∧ deep.before = before.map Prod.snd ∧
          deep.deep = deep.before.getLastD celltype ∧ deep.deep.isDeep = true ∧
            deep.member = projectedCelltype deep.deep [k] ∧
              deep.restSteps = after.map fun step => (step.1 - 1, step.2) := by
  cases localPath with
  | nil => cases h
  | cons k rest =>
    unfold splitDeepStep at h
    dsimp only at h
    split at h
    · rename_i hdeep
      cases h
      refine ⟨k, rfl, _, _, sorted_split (pairwise_sortedSteps steps), ?_, ?_, rfl, rfl, hdeep, rfl, rfl⟩
      · exact fun step hs => of_decide_eq_true (List.mem_filter.mp hs).2
      · exact fun step hs => of_decide_eq_true (List.mem_filter.mp hs).2
    · cases h

/-- The links of a recipe with a deep step start with the conversions in front of it. -/
theorem anonymousLinks_before {celltype : Celltype} {localPath : Path} {steps : List ConversionStep}
    {deep : DeepSplit} (h : splitDeepStep celltype localPath steps = some deep) :
    ∃ links, anonymousLinks celltype localPath steps =
      deep.before.map (fun converted => (converted, [])) ++ links := by
  obtain ⟨k, -, before, after, hsorted, hfront, -, hbefore, -⟩ := splitDeepStep_cases h
  refine ⟨anonymousLinksFrom localPath after (deep.before.getLastD celltype) 0, ?_⟩
  unfold anonymousLinks
  rw [hsorted, anonymousLinksFrom_before localPath before after hfront, hbefore]

/-- The links of a recipe with a deep step: the conversions in front of it, the step, and the links of
the recipe that is left. -/
theorem anonymousLinks_split {celltype : Celltype} {localPath : Path} {steps : List ConversionStep}
    {deep : DeepSplit} (h : splitDeepStep celltype localPath steps = some deep)
    (hslice : ∀ k ∈ localPath.head?, k.isSlice = false) :
    anonymousLinks celltype localPath steps =
      deep.before.map (fun converted => (converted, [])) ++
        (deep.member, localPath.take 1) ::
          anonymousLinks deep.member deep.restPath deep.restSteps := by
  obtain ⟨k, rfl, before, after, hsorted, hfront, hbehind, hbefore, hlast, hdeep, hmember, hrest⟩ :=
    splitDeepStep_cases h
  have hsortedRest : sortedSteps deep.restSteps = deep.restSteps := by
    rw [hrest]
    refine List.Pairwise.insertionSort_eq (List.pairwise_map.mpr ?_)
    have hafter : after.Pairwise fun a b => a.1 ≤ b.1 :=
      ((hsorted ▸ pairwise_sortedSteps steps : (before ++ after).Pairwise _)).sublist
        (List.sublist_append_right _ _)
    refine hafter.imp fun {a b} hab => ?_
    dsimp only
    omega
  unfold anonymousLinks
  rw [hsortedRest, hsorted, anonymousLinksFrom_before _ before after hfront, ← hbefore, ← hlast,
    anonymousLinksFrom_step hdeep (hslice k rfl) _ after hbehind, hmember, hrest]
  rfl

/-! ## The runs up to one of them -/

/-- The last link of a run is one of the links. -/
theorem Cuts.bound {links : List Link} : ∀ {start : Nat} {runs : List Run}, Cuts links start runs →
    ∀ run ∈ runs, run.last < links.length
  | _, [], _, _, hrun => nomatch hrun
  | _, first :: runs, h, run, hrun => by
    rcases List.mem_cons.mp hrun with rfl | hrest
    · exact h.2.1
    · exact h.2.2.2.bound run hrest

namespace ExpressionClass

variable {E : ExpressionClass} {preserving : Celltype → Celltype → Bool}

/-- The open run is the first of the runs, when there is one. -/
theorem evaluateRuns_take_close {openRun : Option OpenRun} {current : Celltype} {index : Nat}
    (h : ∀ run ∈ openRun, run.Open current index) {links : List Link} {tail : List Run}
    (htail : ∀ {j run}, tail[j]? = some run → index ≤ run.last + 1 ∧ ∀ checksum,
      E.evaluateRuns (tail.take (j + 1)) checksum =
        E.evaluateLinks current (links.take (run.last + 1 - index)) checksum)
    {j : Nat} {run : Run} (hj : (OpenRun.close openRun ++ tail)[j]? = some run) :
    index ≤ run.last + 1 ∧ ∀ checksum,
      E.evaluateRuns ((OpenRun.close openRun ++ tail).take (j + 1)) checksum =
        (E.openedValue openRun checksum).bind
          (E.evaluateLinks current (links.take (run.last + 1 - index))) := by
  cases openRun with
  | none => exact htail hj
  | some old =>
    have hopen := h old rfl
    have hvalue : E.project old.path old.inputCelltype old.celltype = E.openValue old :=
      project_of_not_deep hopen.input old.path old.celltype
    cases j with
    | zero =>
      obtain rfl : old.toRun = run := Option.some.inj hj
      have hlast := hopen.last
      refine ⟨by omega, fun checksum => ?_⟩
      have hnil : old.last + 1 - index = 0 := by omega
      rw [hnil]
      show (E.project old.path old.inputCelltype old.celltype checksum).bind some = _
      rw [hvalue]
      rfl
    | succ j =>
      obtain ⟨hle, hrest⟩ := htail (j := j) hj
      refine ⟨hle, fun checksum => ?_⟩
      show (E.project old.path old.inputCelltype old.celltype checksum).bind
        (E.evaluateRuns (tail.take (j + 1))) = _
      rw [hvalue, funext hrest]
      rfl

/-- The runs up to one of them evaluate to what the links up to the last one of that run evaluate to. -/
theorem evaluateRuns_take (hE : E.Lawful preserving) : ∀ {links : List Link} {current : Celltype}
    {index : Nat} {openRun : Option OpenRun}, WellTyped current links →
      (∀ run ∈ openRun, run.Open current index) → ∀ {j : Nat} {run : Run},
        (fusibleRunsFrom preserving links current index openRun)[j]? = some run →
          index ≤ run.last + 1 ∧ ∀ checksum,
            E.evaluateRuns ((fusibleRunsFrom preserving links current index openRun).take (j + 1))
                checksum =
              (E.openedValue openRun checksum).bind
                (E.evaluateLinks current (links.take (run.last + 1 - index)))
  | [], current, index, openRun, _, h, j, run, hj => by
    have hclose : fusibleRunsFrom preserving [] current index openRun = OpenRun.close openRun ++ [] :=
      (List.append_nil _).symm
    rw [hclose] at hj ⊢
    exact evaluateRuns_take_close h (fun {j run} hnone => absurd hnone (by simp)) hj
  | (celltype, path) :: links, current, index, openRun, hwell, h, j, run, hj => by
    -- what follows the link starts one link later
    have hcons : ∀ {last : Nat}, index + 1 ≤ last + 1 →
        ((celltype, path) :: links).take (last + 1 - index) =
          (celltype, path) :: links.take (last + 1 - (index + 1)) := by
      intro last hle
      have hlength : last + 1 - index = (last + 1 - (index + 1)) + 1 := by omega
      rw [hlength, List.take_succ_cons]
    by_cases hdeep : (current.isDeep || celltype.isDeep) = true
    · rw [fusibleRunsFrom_deep hdeep] at hj ⊢
      refine evaluateRuns_take_close h (fun {j run} hj => ?_) hj
      cases j with
      | zero =>
        obtain rfl := Option.some.inj hj
        refine ⟨by dsimp only; omega, fun checksum => ?_⟩
        have hone : index + 1 - index = 1 := by omega
        dsimp only
        rw [hone]
        rfl
      | succ j =>
        obtain ⟨hle, hrest⟩ := evaluateRuns_take hE hwell.2
          (fun run (hrun : run ∈ (none : Option OpenRun)) => nomatch hrun) (j := j) hj
        refine ⟨by omega, fun checksum => ?_⟩
        rw [hcons hle, List.take_succ_cons]
        show (E.project path current celltype checksum).bind _ =
          (E.project path current celltype checksum).bind _
        rw [funext hrest]
        rfl
    · rw [Bool.not_eq_true, Bool.or_eq_false_iff] at hdeep
      obtain ⟨hcurrent, hcelltype⟩ := hdeep
      obtain ⟨next, hnext, hcases⟩ := fusibleRunsFrom_cons preserving hcurrent hcelltype
        (celltype_of_wellTyped hwell hcurrent) h links
      have hopen : ∀ run ∈ some next, run.Open celltype (index + 1) := by
        intro run hrun
        obtain rfl := Option.some.inj hrun
        exact hnext
      have hlink : E.project path current celltype = E.apply path current celltype :=
        project_of_not_deep hcurrent path celltype
      rcases hcases with ⟨heq, hinput, hpath⟩ | ⟨old, rfl, hjoins, heq⟩
      · rw [heq] at hj ⊢
        refine evaluateRuns_take_close h (fun {j run} hj => ?_) hj
        obtain ⟨hle, hrest⟩ := evaluateRuns_take hE hwell.2 hopen hj
        refine ⟨by omega, fun checksum => ?_⟩
        rw [hrest checksum, hcons hle]
        show (E.openValue next checksum).bind _ = (E.project path current celltype checksum).bind _
        rw [hlink, openValue, hinput, hpath, hnext.celltype]
      · rw [heq] at hj ⊢
        obtain ⟨hle, hrest⟩ := evaluateRuns_take hE hwell.2 hopen hj
        refine ⟨by omega, fun checksum => ?_⟩
        rw [hrest checksum, hcons hle]
        show (E.openValue next checksum).bind _ = (E.openValue old checksum).bind fun c =>
          (E.project path current celltype c).bind _
        rw [hjoins E hE checksum, Option.bind_assoc, hlink]

end ExpressionClass

/-! ## What is held for an edge -/

namespace Evaluated

@[simp] theorem anonymous_pure {α : Type} (a : α) : (pure a : Evaluated α).anonymous = [] := rfl

@[simp] theorem anonymous_bind {α β : Type} (x : Evaluated α) (f : α → Evaluated β) :
    (x >>= f).anonymous = x.anonymous ++ (f x.value).anonymous := rfl

@[simp] theorem anonymous_hold (recipe : Recipe) (checksum : Checksum) :
    (hold recipe checksum).anonymous = [(recipe, checksum)] := rfl

end Evaluated

section Held

variable {env : Substrate} {v : View}

theorem anonymous_expressionStep (checksum : Checksum) (localPath : Path)
    (celltype targetType : Celltype) (policy : Policy) :
    (expressionStep env v checksum localPath celltype targetType policy).anonymous = [] := by
  unfold expressionStep
  split <;> rfl

/-- An Expression holds nothing by itself. -/
@[simp] theorem anonymous_projection (checksum : Checksum) (localPath : Path)
    (celltype targetType : Celltype) (policy : Policy) :
    (projection env v checksum localPath celltype targetType policy).anonymous = [] := by
  unfold projection
  split
  · exact anonymous_expressionStep ..
  · rw [Evaluated.anonymous_bind, anonymous_expressionStep, List.nil_append]
    split
    · exact anonymous_expressionStep ..
    · rfl

variable {E : ExpressionClass}

/-- What is held is held under the recorded link at some index, and the links up to that one lead to
it. The index counts from `offset`. -/
def HeldUnder (E : ExpressionClass) (edge : Edge) (offset : Nat) (current : Celltype)
    (links : List Link) (checksum : Checksum) (held : Recipe × Checksum) : Prop :=
  ∃ i recipe, i < links.length ∧ held.1 = linkRecipe edge (offset + i) recipe ∧
    E.evaluateLinks current (links.take (i + 1)) checksum = some held.2

theorem HeldUnder.append {edge : Edge} {offset : Nat} {current : Celltype} {links : List Link}
    {checksum : Checksum} {held : Recipe × Checksum}
    (h : HeldUnder E edge offset current links checksum held) (rest : List Link) :
    HeldUnder E edge offset current (links ++ rest) checksum held := by
  obtain ⟨i, recipe, hi, hname, hc⟩ := h
  refine ⟨i, recipe, by rw [List.length_append]; omega, hname, ?_⟩
  rw [List.take_append_of_le_length hi]
  exact hc

/-- What is held behind some links is held behind them and what leads to them. -/
theorem HeldUnder.behind {edge : Edge} {current : Celltype} {front links : List Link}
    {checksum c : Checksum} {held : Recipe × Checksum}
    (hfront : E.evaluateLinks current front checksum = some c)
    (h : HeldUnder E edge front.length (linksCelltype current front) links c held) :
    HeldUnder E edge 0 current (front ++ links) checksum held := by
  obtain ⟨i, recipe, hi, hname, hc⟩ := h
  refine ⟨front.length + i, recipe, by rw [List.length_append]; omega, by rw [hname, Nat.zero_add], ?_⟩
  have htake : (front ++ links).take (front.length + i + 1) = front ++ links.take (i + 1) := by
    rw [Nat.add_assoc, List.take_length_add_append]
  rw [htake, ExpressionClass.evaluateLinks_append, hfront]
  exact hc

/-- A deep step is read by an item. -/
theorem not_slice_of_project (hE : E.Lawful env.preserving) {deep : Celltype}
    (hdeep : deep.isDeep = true) {k : Component} {c child : Checksum}
    (h : E.project [k] deep (projectedCelltype deep [k]) c = some child) : k.isSlice = false := by
  by_contra hslice
  rw [Bool.not_eq_false] at hslice
  have hbarrier : deepBarrier deep [k] (projectedCelltype deep [k]) = none := by
    unfold deepBarrier
    simp [hdeep]
  unfold ExpressionClass.project at h
  rw [hbarrier] at h
  dsimp only at h
  rw [hE.slices hdeep _ hslice] at h
  cases h

/-- One conversion in front of a deep step, which is skipped when it changes nothing. -/
theorem deepPrefix_cons (hE : E.Lawful env.preserving) (h : v.Agrees E) (edge : Edge)
    (sourceNode : NodePath) (converted : Celltype) (before : List Celltype) (index : Nat)
    (current : Celltype) (checksum : Checksum) :
    ∃ first : Evaluated Projected, first.anonymous = [] ∧
      (∀ c, first.value.state = .complete → first.value.checksum = some c →
        E.project [] current converted checksum = some c) ∧
      deepPrefix env v edge sourceNode (converted :: before) index current checksum =
        first >>= fun result =>
          match result.state, result.checksum with
          | .complete, some c => do
            Evaluated.hold (linkRecipe edge index ⟨.node sourceNode, converted, []⟩) c
            deepPrefix env v edge sourceNode before (index + 1) converted c
          | _, _ => pure { result with checksum := none } := by
  by_cases hsame : converted = current
  · subst hsame
    refine ⟨pure ⟨.complete, some checksum, none⟩, rfl, fun c _ hc => ?_, ?_⟩
    · obtain rfl : checksum = c := Option.some.inj hc
      exact hE.dummy converted checksum
    · refine (deepPrefix.eq_def ..).trans ?_
      dsimp only
      exact if_neg (not_not.mpr rfl)
  · refine ⟨projection env v checksum [] current converted {}, anonymous_projection ..,
      fun c => projection_agrees h, ?_⟩
    refine (deepPrefix.eq_def ..).trans ?_
    dsimp only
    exact if_pos hsame

/-- The conversions in front of a deep step. -/
theorem deepPrefix_held (hE : E.Lawful env.preserving) (h : v.Agrees E) (edge : Edge)
    (sourceNode : NodePath) (before : List Celltype) :
    ∀ (index : Nat) (current : Celltype) (checksum : Checksum),
      (∀ held ∈ (deepPrefix env v edge sourceNode before index current checksum).anonymous,
        HeldUnder E edge index current (before.map fun converted => (converted, [])) checksum held) ∧
      ∀ c, (deepPrefix env v edge sourceNode before index current checksum).value.checksum = some c →
        E.evaluateLinks current (before.map fun converted => (converted, [])) checksum = some c := by
  induction before with
  | nil =>
    intro index current checksum
    exact ⟨fun _ hheld => (nomatch hheld), fun c hc => hc⟩
  | cons converted before ih =>
    intro index current checksum
    obtain ⟨first, hnothing, hfirst, heq⟩ :=
      deepPrefix_cons hE h edge sourceNode converted before index current checksum
    rw [heq, Evaluated.anonymous_bind, Evaluated.value_bind, hnothing, List.nil_append]
    split
    · rename_i c hstate hchecksum
      have hc := hfirst c hstate hchecksum
      obtain ⟨hrest, hvalue⟩ := ih (index + 1) converted c
      rw [Evaluated.anonymous_bind, Evaluated.value_bind, Evaluated.anonymous_hold]
      refine ⟨fun held hheld => ?_, fun c' hc' => ?_⟩
      · rcases List.mem_append.mp hheld with hnew | hlater
        · obtain rfl := List.mem_singleton.mp hnew
          refine ⟨0, _, by simp, rfl, ?_⟩
          show (E.project [] current converted checksum).bind some = some c
          rw [hc]
          rfl
        · obtain ⟨i, recipe, hi, hname, hlinks⟩ := hrest held hlater
          refine ⟨i + 1, recipe, by simpa using hi, ?_, ?_⟩
          · rw [hname]
            congr 1
            omega
          · show (E.project [] current converted checksum).bind
              (E.evaluateLinks converted
                ((before.map fun converted => (converted, [])).take (i + 1))) = _
            rw [hc]
            exact hlinks
      · show (E.project [] current converted checksum).bind _ = some c'
        rw [hc]
        exact hvalue c' hc'
    · exact ⟨fun held hheld => (nomatch hheld), fun c hc => (nomatch hc)⟩

/-- The conversions in front of a deep step, and the step, when it is not the last link. -/
theorem evaluateDeepStep_held (hE : E.Lawful env.preserving) (h : v.Agrees E) (edge : Edge)
    (sourceNode : NodePath) {checksum : Checksum} {rootType : Celltype} {localPath : Path}
    {steps : List ConversionStep} {deep : DeepSplit}
    (hsplit : splitDeepStep rootType localPath steps = some deep) (scratch materialize : Bool) :
    (∀ held ∈ (evaluateDeepStep env v edge sourceNode checksum rootType localPath deep scratch
        materialize).anonymous,
      HeldUnder E edge 0 rootType (anonymousLinks rootType localPath steps) checksum held) ∧
    ∀ c, (evaluateDeepStep env v edge sourceNode checksum rootType localPath deep scratch
        materialize).value.state = .complete →
      (evaluateDeepStep env v edge sourceNode checksum rootType localPath deep scratch
        materialize).value.checksum = some c →
      (∀ k ∈ localPath.head?, k.isSlice = false) ∧
        E.evaluateLinks rootType (deep.before.map (fun converted => (converted, [])) ++
          [(deep.member, localPath.take 1)]) checksum = some c := by
  obtain ⟨k, hlocal, before, after, -, -, -, -, hlast, hdeep, hmember, -⟩ := splitDeepStep_cases hsplit
  obtain ⟨hbefore, hvalue⟩ := deepPrefix_held hE h edge sourceNode deep.before 0 rootType checksum
  have htake : localPath.take 1 = [k] := by
    rw [hlocal]
    rfl
  -- the links up to the step
  have hstep : ∀ {c child}, (deepPrefix env v edge sourceNode deep.before 0 rootType checksum).value.checksum =
      some c → E.project [k] deep.deep deep.member c = some child →
        E.evaluateLinks rootType (deep.before.map (fun converted => (converted, [])) ++
          [(deep.member, localPath.take 1)]) checksum = some child := by
    intro c child hc hchild
    rw [ExpressionClass.evaluateLinks_append, hvalue c hc, linksCelltype_conversions, ← hlast, htake]
    show (E.project [k] deep.deep deep.member c).bind some = some child
    rw [hchild]
    rfl
  have hhead : ∀ {c child}, E.project [k] deep.deep deep.member c = some child →
      ∀ k ∈ localPath.head?, k.isSlice = false := by
    intro c child hchild k' hk'
    rw [hlocal] at hk'
    obtain rfl : k = k' := Option.some.inj hk'
    rw [hmember] at hchild
    exact not_slice_of_project hE hdeep hchild
  obtain ⟨rest, hrest⟩ := anonymousLinks_before hsplit
  have hfront : ∀ held ∈ (deepPrefix env v edge sourceNode deep.before 0 rootType checksum).anonymous,
      HeldUnder E edge 0 rootType (anonymousLinks rootType localPath steps) checksum held := by
    intro held hheld
    rw [hrest]
    exact (hbefore held hheld).append rest
  unfold evaluateDeepStep
  rw [Evaluated.anonymous_bind, Evaluated.value_bind]
  split
  · rename_i c hstate hchecksum
    dsimp only
    rw [Evaluated.anonymous_bind, Evaluated.value_bind, anonymous_projection, List.nil_append, htake]
    split
    · rename_i child hchildState hchildChecksum
      have hchild : E.project [k] deep.deep deep.member c = some child :=
        projection_agrees h hchildState hchildChecksum
      have hvalue := hstep hchecksum hchild
      split
      · refine ⟨fun held hheld => ?_, fun c' _ hc' => ⟨hhead hchild, ?_⟩⟩
        · rcases List.mem_append.mp hheld with hbefore | hnone
          · exact hfront held hbefore
          · exact nomatch hnone
        · obtain rfl := Option.some.inj hc'
          rw [← htake]
          exact hvalue
      · refine ⟨fun held hheld => ?_, fun c' _ hc' => ⟨hhead hchild, ?_⟩⟩
        · rcases List.mem_append.mp hheld with hbefore | hnew
          · exact hfront held hbefore
          · rw [Evaluated.anonymous_bind, Evaluated.anonymous_hold, Evaluated.anonymous_pure,
              List.append_nil] at hnew
            obtain rfl := List.mem_singleton.mp hnew
            refine ⟨deep.before.length, _, ?_, by rw [Nat.zero_add], ?_⟩
            · rw [anonymousLinks_split hsplit (hhead hchild), List.length_append, List.length_map]
              simp
            · rw [anonymousLinks_split hsplit (hhead hchild), List.append_cons]
              have hlength : deep.before.length + 1 = (deep.before.map (fun converted =>
                  ((converted, []) : Link)) ++ [(deep.member, localPath.take 1)]).length := by simp
              rw [hlength, List.take_left]
              exact hvalue
        · obtain rfl := Option.some.inj hc'
          rw [← htake]
          exact hvalue
    · refine ⟨fun held hheld => ?_, fun c' _ hc' => nomatch hc'⟩
      rcases List.mem_append.mp hheld with hbefore | hnone
      · exact hfront held hbefore
      · exact nomatch hnone
  · rename_i hother
    refine ⟨fun held hheld => ?_, fun c' hstate hchecksum => absurd hchecksum (hother c' hstate)⟩
    rcases List.mem_append.mp hheld with hbefore | hnone
    · exact hfront held hbefore
    · exact nomatch hnone

/-- The runs of a recipe: each result but the last one. -/
theorem evaluateRuns_held (h : v.Agrees E) (edge : Edge) (sourceNode : NodePath) (links : List Link)
    (chainOffset : Nat) (scratch materialize : Bool) (runs : List Run) :
    ∀ {checksum : Checksum} {held : Recipe × Checksum}, held ∈ (evaluateRuns env v edge sourceNode links
        chainOffset scratch materialize runs checksum).anonymous →
      ∃ j run recipe, runs[j]? = some run ∧ held.1 = linkRecipe edge (chainOffset + run.last) recipe ∧
        E.evaluateRuns (runs.take (j + 1)) checksum = some held.2 := by
  induction runs with
  | nil =>
    intro checksum held hheld
    cases hheld
  | cons run runs ih =>
    intro checksum held hheld
    unfold evaluateRuns at hheld
    dsimp only at hheld
    split at hheld
    · cases hheld
    · rw [Evaluated.anonymous_bind, anonymous_projection, List.nil_append] at hheld
      split at hheld
      · rename_i c hstate hchecksum
        have hrun : E.project run.path run.inputCelltype run.celltype checksum = some c :=
          projection_agrees h hstate hchecksum
        split at hheld
        · cases hheld
        · rw [Evaluated.anonymous_bind, Evaluated.anonymous_hold] at hheld
          rcases List.mem_append.mp hheld with hnew | hlater
          · obtain rfl := List.mem_singleton.mp hnew
            refine ⟨0, run, _, rfl, rfl, ?_⟩
            show (E.project run.path run.inputCelltype run.celltype checksum).bind some = some c
            rw [hrun]
            rfl
          · obtain ⟨j, other, recipe, hother, hname, hc⟩ := ih hlater
            refine ⟨j + 1, other, recipe, hother, hname, ?_⟩
            show (E.project run.path run.inputCelltype run.celltype checksum).bind
              (E.evaluateRuns (runs.take (j + 1))) = _
            rw [hrun]
            exact hc
      · cases hheld

/-- The recipe that follows a deep step, or a recipe without one. -/
theorem evaluateRecipe_held (hE : E.Lawful env.preserving) (h : v.Agrees E) (edge : Edge)
    (sourceNode : NodePath) {checksum : Checksum} {rootType : Celltype} {sourceLocal : Path}
    {steps : List ConversionStep} {chainOffset : Nat} {scratch materialize : Bool}
    {held : Recipe × Checksum} (hheld : held ∈ (evaluateRecipe env v edge sourceNode checksum rootType
      sourceLocal steps chainOffset scratch materialize).anonymous) :
    HeldUnder E edge chainOffset rootType (anonymousLinks rootType sourceLocal steps) checksum held := by
  unfold evaluateRecipe at hheld
  split at hheld
  · obtain ⟨j, run, recipe, hj, hname, hc⟩ := evaluateRuns_held h edge sourceNode _ _ _ _ _ hheld
    have hwell : WellTyped rootType (anonymousLinks rootType sourceLocal steps) :=
      anonymousLinksFrom_wellTyped ..
    have hnone : ∀ run ∈ (none : Option OpenRun), run.Open rootType 0 := fun run hrun => nomatch hrun
    obtain ⟨-, hvalue⟩ := ExpressionClass.evaluateRuns_take hE hwell hnone hj
    have hcuts := (fusibleRuns_preserveMeaning env E hE rootType sourceLocal steps).cuts
    refine ⟨run.last, recipe, hcuts.bound run (List.mem_of_getElem? hj), hname, ?_⟩
    exact (hvalue checksum).symm.trans hc
  · split at hheld
    · rw [Evaluated.anonymous_bind, anonymous_projection] at hheld
      exact nomatch hheld
    · exact nomatch hheld

/-- Every intermediate result of an edge. -/
theorem evaluateSource_held (hE : E.Lawful env.preserving) (h : v.Agrees E) (edge : Edge)
    {sourceNode : NodePath} {sourceLocal : Path} {source target : Node} {targetLocal : Path}
    {held : Recipe × Checksum} (hheld : held ∈
      (evaluateSource env v edge sourceNode sourceLocal source target targetLocal).anonymous) :
    ∃ root, source.currentChecksum = some root ∧
      HeldUnder E edge 0 (v.graph.nodeCelltype sourceNode)
        (anonymousLinks (v.graph.nodeCelltype sourceNode) sourceLocal
          (recipeSteps edge sourceLocal (sourceTypeOf v.graph edge sourceNode sourceLocal))) root held := by
  unfold evaluateSource at hheld
  split at hheld
  · exact nomatch hheld
  · split at hheld
    · exact nomatch hheld
    · dsimp only at hheld
      split at hheld
      · split at hheld <;> exact nomatch hheld
      · rename_i root hroot
        refine ⟨root, hroot, ?_⟩
        split at hheld
        · have hrecipe := evaluateRecipe_held hE h edge sourceNode hheld
          exact hrecipe
        · rename_i deep hsplit
          rw [Evaluated.anonymous_bind] at hheld
          obtain ⟨hstep, hvalue⟩ := @evaluateDeepStep_held env v E hE h edge sourceNode root _ _ _ _ hsplit
            (edgePolicy edge sourceLocal target targetLocal).1
            (edgePolicy edge sourceLocal target targetLocal).2
          rcases List.mem_append.mp hheld with hbefore | hbehind
          · exact hstep held hbefore
          · split at hbehind
            · rename_i c hstate hchecksum
              obtain ⟨hhead, hfront⟩ := hvalue c hstate hchecksum
              have hrest := evaluateRecipe_held hE h edge sourceNode hbehind
              have hlength : deep.before.length + 1 = (deep.before.map (fun converted =>
                  ((converted, []) : Link)) ++ [(deep.member, sourceLocal.take 1)]).length := by simp
              have hlast : linksCelltype (v.graph.nodeCelltype sourceNode)
                  (deep.before.map (fun converted => ((converted, []) : Link)) ++
                    [(deep.member, sourceLocal.take 1)]) = deep.member := by
                rw [linksCelltype_append]
                rfl
              rw [anonymousLinks_split hsplit hhead, List.append_cons]
              refine HeldUnder.behind hfront ?_
              rw [← hlength, hlast]
              exact hrest
            · exact nomatch hbehind

end Held

/-! ## The recorded chain -/

/-- The paths of the links, one after the other. -/
theorem flatMap_pathLinks (current : Celltype) (path : Path) :
    (pathLinks current path).flatMap Prod.snd = path := by
  match path with
  | [] => rfl
  | [k] => rfl
  | k :: k' :: rest =>
    show (if current.isDeep then _ else _ : List Link).flatMap Prod.snd = _
    split <;> simp

theorem flatMap_anonymousLinksFrom (localPath : Path) : ∀ (steps : List ConversionStep)
    (current : Celltype) (position : Nat), position ≤ localPath.length →
      (anonymousLinksFrom localPath steps current position).flatMap Prod.snd = localPath.drop position
  | [], _, _, _ => flatMap_pathLinks ..
  | (stepPosition, converted) :: steps, current, position, hposition => by
    have hnext : position ≤ min (max stepPosition.toNat position) localPath.length := by omega
    have hrest := flatMap_anonymousLinksFrom localPath steps converted
      (min (max stepPosition.toNat position) localPath.length) (Nat.min_le_right _ _)
    unfold anonymousLinksFrom
    dsimp only
    rw [List.flatMap_append, List.flatMap_cons, flatMap_pathLinks, List.nil_append, hrest]
    generalize min (max stepPosition.toNat position) localPath.length = next at hnext
    obtain ⟨count, rfl⟩ := Nat.exists_eq_add_of_le hnext
    rw [List.drop_take, Nat.add_sub_cancel_left, ← List.drop_drop, List.take_append_drop]

theorem flatMap_anonymousLinks (current : Celltype) (localPath : Path) (steps : List ConversionStep) :
    (anonymousLinks current localPath steps).flatMap Prod.snd = localPath :=
  flatMap_anonymousLinksFrom localPath _ current 0 (Nat.zero_le _)

theorem path_ne_nil_of_pathLinks {current : Celltype} {path : Path} {link : Link}
    (h : link ∈ pathLinks current path) : link.2 ≠ [] := by
  unfold pathLinks at h
  split at h
  · exact nomatch h
  · rw [List.mem_singleton.mp h]
    exact List.cons_ne_nil _ _
  · rename_i k rest hrest
    have hne : rest ≠ [] := hrest
    split at h
    · rcases List.mem_cons.mp h with rfl | h
      · exact List.cons_ne_nil _ _
      · rw [List.mem_singleton.mp h]
        exact hne
    · rw [List.mem_singleton.mp h]
      exact List.cons_ne_nil _ _

/-- Only the first segment of a path is read from the celltype of the source. A conversion follows. -/
theorem anonymousLinks_segment (localPath : Path) (steps : List ConversionStep) :
    ∃ segment links, (∀ next ∈ List.head? links, next.2 = []) ∧
      ∀ current, anonymousLinks current localPath steps = pathLinks current segment ++ links := by
  unfold anonymousLinks
  cases sortedSteps steps with
  | nil => exact ⟨localPath, [], by simp, fun current => (List.append_nil _).symm⟩
  | cons step steps =>
    refine ⟨_, _, fun next h => ?_, fun current => rfl⟩
    rw [← Option.some.inj h]

/-- Is one of the links ill-formed, when the first of them reads this celltype? -/
def linksMiswired : Celltype → List Link → Bool
  | _, [] => false
  | current, link :: links => linkMiswired current link.1 link.2 || linksMiswired link.1 links

/-- Two links in front carry a path: a deep step, and what is below it. -/
def readsBelowDeep : List Link → Bool
  | first :: second :: _ => !first.2.isEmpty && !second.2.isEmpty
  | _ => false

/-- The recorded chain of an edge reads below a deep step of its source. -/
def Edge.ReadsBelowDeep (edge : Edge) : Prop :=
  readsBelowDeep (edge.sourceChain.map Recipe.link) = true

instance (edge : Edge) : Decidable edge.ReadsBelowDeep :=
  inferInstanceAs (Decidable (_ = true))

/-- The chain of an edge is cut as the recipe is cut from every celltype over which it is well-formed,
and that is deep where the chain reads below a deep step. -/
def Edge.Cut (edge : Edge) : Prop :=
  ∀ celltype, linksMiswired celltype (edge.sourceChain.map Recipe.link) = false →
    (edge.ReadsBelowDeep → celltype.isDeep = true) →
      edge.sourceChain.map Recipe.link =
        anonymousLinks celltype (edge.sourceChain.flatMap Recipe.path) edge.sourceConversionSteps

/-- The recipe of an edge still is the one it was wired with: it converts exactly when it has
conversions, its source resolves to the node and the path of its chain, and a node of which it has
recorded a deep step is deep. -/
structure Edge.ReadAsWired (g : ContextGraph) (edge : Edge) : Prop where
  formed : edge.sourceConversion = true ↔ edge.sourceConversionSteps ≠ []
  cut : edge.Cut
  localPath : ∀ r ∈ g.resolveExisting edge.source, edge.sourceChain.flatMap Recipe.path = r.2
  starts : ∀ r ∈ g.resolveExisting edge.source, StartsAt edge.sourceChain r.1
  deep : ∀ r ∈ g.resolveExisting edge.source, edge.ReadsBelowDeep → (g.nodeCelltype r.1).isDeep = true

/-- A path is cut into the same links from two celltypes, when its first link is well-formed over the
second one, and that one is deep where two links have been made. -/
theorem pathLinks_eq {recorded current : Celltype} {segment : Path} {first : Link}
    (hfirst : (pathLinks recorded segment).head? = some first)
    (hwired : linkMiswired current first.1 first.2 = false)
    (hdeep : (pathLinks recorded segment).length = 2 → current.isDeep = true) :
    pathLinks recorded segment = pathLinks current segment := by
  match segment with
  | [] => cases hfirst
  | [k] =>
    obtain rfl := Option.some.inj hfirst
    unfold linkMiswired at hwired
    dsimp only at hwired
    split at hwired
    · cases hwired
    · have hsame : projectedCelltype recorded [k] = projectedCelltype current [k] := by
        simpa using hwired
      show [(projectedCelltype recorded [k], [k])] = [(projectedCelltype current [k], [k])]
      rw [hsame]
  | k :: k' :: rest =>
    by_cases hrecorded : recorded.isDeep = true
    · have hcut : pathLinks recorded (k :: k' :: rest) =
          [(projectedCelltype recorded [k], [k]),
            (projectedCelltype (projectedCelltype recorded [k]) (k' :: rest), k' :: rest)] :=
        if_pos hrecorded
      have hcurrent : current.isDeep = true := hdeep (by rw [hcut]; rfl)
      rw [hcut] at hfirst
      obtain rfl := Option.some.inj hfirst
      unfold linkMiswired at hwired
      dsimp only at hwired
      split at hwired
      · cases hwired
      · have hsame : projectedCelltype recorded [k] = projectedCelltype current [k] := by
          simpa using hwired
        rw [hcut, hsame]
        exact (if_pos hcurrent).symm
    · have hcut : pathLinks recorded (k :: k' :: rest) =
          [(projectedCelltype recorded (k :: k' :: rest), k :: k' :: rest)] := if_neg hrecorded
      rw [hcut] at hfirst
      obtain rfl := Option.some.inj hfirst
      unfold linkMiswired at hwired
      dsimp only at hwired
      split at hwired
      · cases hwired
      · rename_i hshallow
        have hcurrent : ¬ current.isDeep = true := by
          simpa using hshallow
        have hsame : projectedCelltype recorded (k :: k' :: rest) =
            projectedCelltype current (k :: k' :: rest) := by
          simpa using hwired
        rw [hcut, hsame]
        exact (if_neg hcurrent).symm

/-- A recipe is cut into the same links from two celltypes, when the links of the one are well-formed over
the other one, and that is deep where they read below a deep step. -/
theorem anonymousLinks_again {recorded current : Celltype} {localPath : Path}
    {steps : List ConversionStep}
    (hwired : linksMiswired current (anonymousLinks recorded localPath steps) = false)
    (hdeep : readsBelowDeep (anonymousLinks recorded localPath steps) = true → current.isDeep = true) :
    anonymousLinks recorded localPath steps = anonymousLinks current localPath steps := by
  obtain ⟨segment, links, -, hsegment⟩ := anonymousLinks_segment localPath steps
  rw [hsegment recorded] at hwired hdeep
  rw [hsegment, hsegment]
  congr 1
  cases hsegments : pathLinks recorded segment with
  | nil =>
    have hnil : segment = [] := by
      rw [← flatMap_pathLinks recorded segment, hsegments]
      rfl
    rw [hnil]
    rfl
  | cons first rest =>
    have hpaths : ∀ link ∈ first :: rest, link.2.isEmpty = false := by
      intro link hlink
      rw [← hsegments] at hlink
      exact List.isEmpty_eq_false_iff.mpr (path_ne_nil_of_pathLinks hlink)
    rw [hsegments, List.cons_append] at hwired hdeep
    unfold linksMiswired at hwired
    rw [Bool.or_eq_false_iff] at hwired
    rw [← hsegments]
    refine pathLinks_eq (congrArg List.head? hsegments) hwired.1 fun htwo => hdeep ?_
    rw [hsegments, List.length_cons] at htwo
    obtain ⟨second, rfl⟩ := List.length_eq_one_iff.mp (Nat.succ.inj htwo)
    unfold readsBelowDeep
    simp [hpaths first (List.mem_cons_self ..),
      hpaths second (List.mem_cons_of_mem _ (List.mem_singleton_self _))]

/-- A recipe that is cut below a deep step reads a deep celltype. -/
theorem deep_of_readsBelowDeep {current : Celltype} {localPath : Path} {steps : List ConversionStep}
    (h : readsBelowDeep (anonymousLinks current localPath steps) = true) : current.isDeep = true := by
  obtain ⟨segment, links, hnext, hsegment⟩ := anonymousLinks_segment localPath steps
  rw [hsegment current] at h
  have hsingle : ∀ link : Link, readsBelowDeep (link :: links) = false := by
    intro link
    cases links with
    | nil => rfl
    | cons next links =>
      unfold readsBelowDeep
      simp [hnext next rfl]
  match segment with
  | [] =>
    cases links with
    | nil => cases h
    | cons next links =>
      cases links with
      | nil => cases h
      | cons second links =>
        unfold readsBelowDeep at h
        simp [pathLinks, hnext next rfl] at h
  | [k] => exact absurd h (by rw [show pathLinks current [k] ++ links = _ :: links from rfl, hsingle]; simp)
  | k :: k' :: rest =>
    by_contra hshallow
    have hcut : pathLinks current (k :: k' :: rest) ++ links =
        (projectedCelltype current (k :: k' :: rest), k :: k' :: rest) :: links :=
      congrArg (· ++ links) (if_neg hshallow)
    rw [hcut, hsingle] at h
    cases h

/-- Behind its first link a chain is judged by its links alone. -/
theorem chainMiswiredFrom_symbols {g : ContextGraph} {chain : List Recipe}
    (h : ∀ recipe ∈ chain, ∃ name, recipe.source = .symbol name) (current : Celltype) :
    g.chainMiswiredFrom chain (some current) = linksMiswired current (chain.map Recipe.link) := by
  induction chain generalizing current with
  | nil => rfl
  | cons recipe chain ih =>
    obtain ⟨name, hname⟩ := h recipe (List.mem_cons_self ..)
    unfold ContextGraph.chainMiswiredFrom
    rw [hname]
    dsimp only
    rw [ih fun r hr => h r (List.mem_cons_of_mem _ hr)]
    rfl

/-- The recorded chain of a well-wired edge has the links that its recipe has now. -/
theorem Edge.ReadAsWired.links {g : ContextGraph} {edge : Edge} (hread : edge.ReadAsWired g)
    {source : NodePath} {sourceLocal : Path}
    (hr : g.resolveExisting edge.source = some (source, sourceLocal)) (hnode : source ∈ g.nodes)
    (hwired : g.chainMiswired edge.sourceChain = false) :
    edge.sourceChain.map Recipe.link =
      anonymousLinks (g.nodeCelltype source) sourceLocal edge.sourceConversionSteps := by
  have hlinks : linksMiswired (g.nodeCelltype source) (edge.sourceChain.map Recipe.link) = false := by
    cases hchain : edge.sourceChain with
    | nil => rfl
    | cons first rest =>
      have hsource : first.source = .node source :=
        (hread.starts _ hr).head first (by rw [hchain]; rfl)
      have hbehind : ∀ recipe ∈ rest, ∃ name, recipe.source = .symbol name := fun recipe hrecipe =>
        (hread.starts _ hr).behind recipe (by rw [hchain]; exact hrecipe)
      rw [hchain] at hwired
      unfold ContextGraph.chainMiswired ContextGraph.chainMiswiredFrom at hwired
      dsimp only at hwired
      rw [hsource] at hwired
      dsimp only at hwired
      rw [if_pos hnode, chainMiswiredFrom_symbols hbehind] at hwired
      exact hwired
  have hlocal : edge.sourceChain.flatMap Recipe.path = sourceLocal := hread.localPath _ hr
  rw [← hlocal]
  exact hread.cut _ hlinks (hread.deep _ hr)

/-! ## Edges -/

/-- Every intermediate result of an edge is held under a recipe of its recorded chain: what the links up
to that one, read from the node the chain starts at, evaluate to. -/
def Edge.NamesLinks (env : Substrate) (v : View) (edge : Edge) : Prop :=
  ∀ E : ExpressionClass, E.Lawful env.preserving → v.Agrees E →
    ∀ held ∈ (sourceState env v (v.graph.ownLink edge)).anonymous, ∃ i source node root,
      edge.sourceChain[i]? = some held.1 ∧
      (edge.sourceChain.head?.map Recipe.source) = some (.node source) ∧
      v.graph.nodes.lookup source = some node ∧ node.currentChecksum = some root ∧
      E.evaluateLinks node.celltype ((edge.sourceChain.take (i + 1)).map Recipe.link) root = some held.2

/-- A deep step that is the only link holds nothing. -/
theorem evaluateDeepStep_quiet {env : Substrate} {v : View} {edge : Edge} {sourceNode : NodePath}
    {checksum : Checksum} {rootType : Celltype} {localPath : Path} {deep : DeepSplit}
    {scratch materialize : Bool} (hbefore : deep.before = []) (hpath : deep.restPath = [])
    (hsteps : deep.restSteps = []) :
    (evaluateDeepStep env v edge sourceNode checksum rootType localPath deep scratch
      materialize).anonymous = [] := by
  have hlast : (decide (deep.restPath = []) && decide (deep.restSteps = [])) = true := by
    simp [hpath, hsteps]
  unfold evaluateDeepStep
  have hnone : deepPrefix env v edge sourceNode [] 0 rootType checksum =
      pure ⟨.complete, some checksum, none⟩ := by
    unfold deepPrefix
    rfl
  rw [hbefore, hnone, Evaluated.anonymous_bind, Evaluated.anonymous_pure, List.nil_append,
    Evaluated.value_pure]
  dsimp only
  rw [Evaluated.anonymous_bind, anonymous_projection, List.nil_append]
  split
  · rw [if_pos hlast]
    rfl
  · rfl

/-- A recipe without conversions holds nothing, unless it goes on below a deep step. -/
theorem evaluateSource_quiet {env : Substrate} {v : View} {edge : Edge} {sourceNode : NodePath}
    {sourceLocal : Path} {source target : Node} {targetLocal : Path}
    (hsteps : recipeSteps edge sourceLocal (sourceTypeOf v.graph edge sourceNode sourceLocal) = [])
    (hone : sourceLocal.length ≤ 1 ∨ (v.graph.nodeCelltype sourceNode).isDeep = false) :
    (evaluateSource env v edge sourceNode sourceLocal source target targetLocal).anonymous = [] := by
  have hplain : ∀ {checksum celltype localPath offset scratch materialize},
      (evaluateRecipe env v edge sourceNode checksum celltype localPath [] offset scratch
        materialize).anonymous = [] := by
    intro checksum celltype localPath offset scratch materialize
    unfold evaluateRecipe
    rw [if_neg (not_not.mpr rfl)]
    split
    · rw [Evaluated.anonymous_bind, anonymous_projection]
      rfl
    · rfl
  unfold evaluateSource
  split
  · rfl
  · split
    · rfl
    · dsimp only
      rw [hsteps]
      split
      · split <;> rfl
      · split
        · exact hplain
        · rename_i deep hsplit
          obtain ⟨k, hlocal, before, after, hsorted, -, -, hbefore, hlast, hdeep, -, hrest⟩ :=
            splitDeepStep_cases hsplit
          obtain ⟨rfl, rfl⟩ := List.append_eq_nil_iff.mp hsorted.symm
          have hshort : deep.restPath = [] := by
            rcases hone with hlength | hshallow
            · rw [hlocal, List.length_cons] at hlength
              exact List.eq_nil_of_length_eq_zero (by omega)
            · rw [hlast, hbefore] at hdeep
              exact absurd hdeep (by simp [hshallow])
          rw [Evaluated.anonymous_bind, evaluateDeepStep_quiet hbefore hshort hrest, List.nil_append,
            hrest]
          split
          · exact hplain
          · rfl

/-- An edge that is looked through has one link. -/
theorem chain_of_looksThrough {g : ContextGraph} {edge : Edge} (h : g.looksThrough edge = true) :
    ∃ source celltype path, edge.sourceChain = [⟨.node source, celltype, path⟩] := by
  unfold ContextGraph.looksThrough at h
  split at h
  · rename_i source celltype path hchain
    exact ⟨source, celltype, path, hchain⟩
  · cases h

/-- An edge without conversions is looked through when one with conversions is. -/
theorem looksThrough_of_plain {g : ContextGraph} {edge plain : Edge}
    (hchain : plain.sourceChain = edge.sourceChain) (htarget : plain.target = edge.target)
    (hplain : plain.sourceConversion = false) (h : g.looksThrough edge = true) :
    g.looksThrough plain = true := by
  have hcelltype : g.edgeTargetCelltype plain = g.edgeTargetCelltype edge := by
    unfold ContextGraph.edgeTargetCelltype
    rw [htarget]
  have hslot : g.convertsIntoDeepSlot plain = false := by
    unfold ContextGraph.convertsIntoDeepSlot
    rw [hplain]
    split
    · rfl
    · split <;> rfl
  obtain ⟨source, celltype, path, hsingle⟩ := chain_of_looksThrough h
  unfold ContextGraph.looksThrough at h ⊢
  rw [hsingle] at h
  rw [hchain, hsingle, hcelltype, hslot, hplain]
  dsimp only at h ⊢
  by_cases hsource : source ∉ g.nodes
  · rw [if_pos hsource] at h
    cases h
  · rw [if_neg hsource] at h ⊢
    split at h
    · cases h
    · by_cases hpath : path = []
      · simpa [hpath] using h
      · simp [hpath]

theorem ownLink_of_looksThrough {g : ContextGraph} {edge : Edge} (h : g.looksThrough edge = true) :
    (g.ownLink edge).sourceChain = edge.sourceChain ∧ (g.ownLink edge).sourceConversion = false ∧
      (g.ownLink edge).sourceConversionSteps = [] := by
  unfold ContextGraph.ownLink
  rw [if_pos h]
  exact ⟨rfl, rfl, rfl⟩

theorem recipeSteps_plain {edge : Edge} (hplain : edge.sourceConversion = false)
    (hsteps : edge.sourceConversionSteps = []) (localPath : Path) (sourceType : Celltype) :
    recipeSteps edge localPath sourceType = [] := by
  unfold recipeSteps
  rw [hplain, hsteps]
  rfl

/-- An edge that is looked through holds nothing, when it reads one link as well. -/
theorem reads_one_link {g : ContextGraph} {edge : Edge} (hread : edge.ReadAsWired g)
    {source : NodePath} {sourceLocal : Path}
    (hr : g.resolveExisting edge.source = some (source, sourceLocal)) {celltype : Celltype} {path : Path}
    {sourceKey : NodePath} (hchain : edge.sourceChain = [⟨.node sourceKey, celltype, path⟩])
    (hone : g.readsAsOneLink edge = true) :
    sourceLocal.length ≤ 1 ∨ (g.nodeCelltype source).isDeep = false := by
  have hpath : path = sourceLocal := by
    have hlocal := hread.localPath _ hr
    rw [hchain] at hlocal
    exact (List.append_nil path).symm.trans hlocal
  have hkey : sourceKey = source := by
    have hnode := (hread.starts _ hr).head ⟨.node sourceKey, celltype, path⟩ (by rw [hchain]; rfl)
    exact RecipeSource.node.inj hnode
  subst hpath hkey
  by_contra hmore
  rw [not_or, Bool.not_eq_false] at hmore
  obtain ⟨hlong, hdeep⟩ := hmore
  unfold ContextGraph.readsAsOneLink at hone
  rw [hchain] at hone
  match path with
  | [] => exact hlong (Nat.zero_le _)
  | [k] => exact hlong (le_refl _)
  | k :: k' :: rest =>
    have hlinks : (anonymousLinks (g.nodeCelltype sourceKey) (k :: k' :: rest) []).length = 2 := by
      show (if (g.nodeCelltype sourceKey).isDeep then _ else _ : List Link).length = 2
      rw [if_pos hdeep]
      rfl
    dsimp only at hone
    rw [hlinks] at hone
    simp at hone

/-- The intermediate results of a well-wired edge are those of its recorded chain. -/
theorem Edge.ReadAsWired.namesLinks {env : Substrate} {v : View} {edge : Edge}
    (hread : edge.ReadAsWired v.graph) : edge.NamesLinks env v := by
  intro E hE h held hheld
  unfold sourceState at hheld
  split at hheld
  · exact nomatch hheld
  · exact nomatch hheld
  · rename_i hmiswiring
    split at hheld
    · rename_i source sourceLocal targetPath targetLocal hsource htarget
      split at hheld
      · rename_i node target hnode htargetNode
        split at hheld
        · exact nomatch hheld
        · rw [ContextGraph.ownLink_source] at hsource
          by_cases hlooks : v.graph.looksThrough edge = true
          · -- an edge that is looked through has one link only
            obtain ⟨sourceKey, celltype, path, hchain⟩ := chain_of_looksThrough hlooks
            obtain ⟨hown, hplain, hsteps⟩ := ownLink_of_looksThrough hlooks
            have hlooks' := looksThrough_of_plain hown (v.graph.ownLink_target edge) hplain hlooks
            have hone : v.graph.readsAsOneLink edge = true := by
              by_contra hmore
              have hmore' : (!v.graph.readsAsOneLink (v.graph.ownLink edge)) = true := by
                unfold ContextGraph.readsAsOneLink at hmore ⊢
                rw [hown]
                simpa using hmore
              unfold ContextGraph.edgeMiswiring at hmiswiring
              rw [if_pos hlooks', if_pos hmore'] at hmiswiring
              cases hmiswiring
            rw [evaluateSource_quiet (recipeSteps_plain hplain hsteps _ _)
              (reads_one_link hread hsource hchain hone)] at hheld
            exact nomatch hheld
          · have hown : v.graph.ownLink edge = edge := if_neg hlooks
            rw [hown] at hheld hmiswiring
            have hwired : v.graph.chainMiswired edge.sourceChain = false := by
              unfold ContextGraph.edgeMiswiring at hmiswiring
              rw [if_neg hlooks] at hmiswiring
              by_contra hbad
              rw [Bool.not_eq_false] at hbad
              rw [if_pos hbad] at hmiswiring
              cases hmiswiring
            have hlinks := hread.links hsource (ContextGraph.resolveExisting_mem hsource) hwired
            have hsteps : recipeSteps edge sourceLocal
                (sourceTypeOf v.graph edge source sourceLocal) = edge.sourceConversionSteps := by
              unfold recipeSteps
              refine if_neg fun hbare => ?_
              simp only [Bool.and_eq_true, decide_eq_true_eq] at hbare
              exact hread.formed.mp hbare.1 hbare.2
            obtain ⟨root, hroot, i, recipe, hi, hname, hvalue⟩ :=
              evaluateSource_held hE h edge hheld
            rw [hsteps, ← hlinks] at hi hvalue
            rw [List.length_map] at hi
            have hentry : edge.sourceChain[i]? = some held.1 := by
              rw [hname, linkRecipe, Nat.zero_add, List.getElem?_eq_getElem hi]
              rfl
            obtain ⟨first, rest, hcons⟩ := List.exists_cons_of_length_pos (Nat.zero_lt_of_lt hi)
            refine ⟨i, source, node, root, hentry, ?_, hnode, hroot, ?_⟩
            · rw [hcons]
              exact congrArg some ((hread.starts _ hsource).head first (by rw [hcons]; rfl))
            · have hcelltype : v.graph.nodeCelltype source = node.celltype := by
                unfold ContextGraph.nodeCelltype
                rw [hnode]
                rfl
              rw [List.map_take, ← hcelltype]
              exact hvalue
      · exact nomatch hheld
    · exact nomatch hheld

end SeamlessWorkflow
