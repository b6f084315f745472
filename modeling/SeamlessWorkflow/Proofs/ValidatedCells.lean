import SeamlessWorkflow.Proofs.SettledRuns

/-!
# Which cells are validated

The validator of a cell is part of the last Expression that derivation makes for it. There is such an
Expression for a stored value, for a plain projection and for an unconverted root edge of another
celltype. The value of every other form of input is taken over as it is, whatever the validator says.
-/

namespace SeamlessWorkflow

open Program Relation

/-- Is the last step of the derivation of a cell an Expression with its validator? -/
def ContextGraph.validates (g : ContextGraph) (path : NodePath) (fields : CellFields) : Bool :=
  match (g.incomingFor path).lookup [] with
  | none => decide (g.incomingFor path = []) && fields.rootExpression.isNone
  | some edge =>
    match g.resolveExisting edge.source with
    | none => false
    | some (source, sourceLocal) =>
      !edge.sourceConversion &&
        if sourceLocal = [] then decide (g.nodeCelltype source ≠ fields.config.celltype)
        else !edge.sourceConversionBefore

/-- The Expression into the celltype of a cell, with its validator, has given this result. -/
def ValidatedAs (facts : AList (fun _ : FactKey => FactValue)) (config : CellConfig)
    (validator : String) (c : Checksum) : Prop :=
  ∃ source localPath input, facts.lookup (.expression source localPath input config.celltype
    (some validator) config.validatorLanguage config.scratch false) = some (.result c)

/-! ## The Expressions with a validator -/

section Evaluation

variable {env : Substrate} {v : View}

theorem demand_complete {key : FactKey} {c : Checksum}
    (hstate : (demand v key).value.state = .complete) (hc : (demand v key).value.checksum = some c) :
    v.facts.lookup key = some (.result c) := by
  unfold demand at hstate hc
  dsimp only at hstate hc
  cases hfact : v.facts.lookup key with
  | none =>
    rw [hfact] at hstate
    cases hstate
  | some value =>
    rw [hfact] at hstate hc
    cases value with
    | failure e => cases hstate
    | result c' =>
      obtain rfl := Option.some.inj hc
      rfl

theorem expressionStep_complete {checksum c : Checksum} {localPath : Path}
    {celltype targetType : Celltype} {policy : Policy}
    (hstate : (expressionStep env v checksum localPath celltype targetType policy).value.state =
      .complete)
    (hc : (expressionStep env v checksum localPath celltype targetType policy).value.checksum = some c) :
    v.facts.lookup (.expression checksum localPath celltype targetType policy.validator
      policy.validatorLanguage policy.scratch policy.materialize) = some (.result c) := by
  unfold expressionStep at hstate hc
  split at hstate
  · cases hstate
  · rename_i hnone
    rw [hnone] at hc
    exact demand_complete hstate hc

/-- The last Expression of a projection has the target type and the policy. -/
theorem projection_complete {checksum c : Checksum} {localPath : Path}
    {celltype targetType : Celltype} {policy : Policy}
    (hstate : (projection env v checksum localPath celltype targetType policy).value.state = .complete)
    (hc : (projection env v checksum localPath celltype targetType policy).value.checksum = some c) :
    ∃ source rest input, v.facts.lookup (.expression source rest input targetType policy.validator
      policy.validatorLanguage policy.scratch policy.materialize) = some (.result c) := by
  unfold projection at hstate hc
  cases hbarrier : deepBarrier celltype localPath targetType with
  | none =>
    rw [hbarrier] at hstate hc
    exact ⟨_, _, _, expressionStep_complete hstate hc⟩
  | some member =>
    rw [hbarrier] at hstate hc
    dsimp only at hstate hc
    rw [Evaluated.value_bind] at hstate hc
    cases hstep : (expressionStep env v checksum (localPath.take 1) celltype member {}).value with
    | mk state child error =>
      rw [hstep] at hstate hc
      dsimp only at hstate hc
      split at hstate
      · exact ⟨_, _, _, expressionStep_complete hstate hc⟩
      · rename_i hstuck
        rw [Evaluated.value_pure] at hstate
        obtain rfl : state = .complete := hstate
        cases child with
        | none => cases hc
        | some child => exact absurd rfl (hstuck child rfl)

/-- The outcome of a cell whose last step is a projection with its validator. -/
theorem validatedAs_of_projection {config : CellConfig} {validator : String}
    (hvalidator : config.validator = some validator) {checksum c : Checksum} {localPath : Path}
    {celltype : Celltype}
    (hstate : (projection env v checksum localPath celltype config.celltype
      (cellPolicy config)).value.state = .complete)
    (hc : (projection env v checksum localPath celltype config.celltype
      (cellPolicy config)).value.checksum = some c) : ValidatedAs v.facts config validator c := by
  obtain ⟨source, rest, input, hfact⟩ := projection_complete hstate hc
  unfold cellPolicy at hfact
  rw [hvalidator] at hfact
  exact ⟨source, rest, input, hfact⟩

/-- An edge that delivers a checksum is wired well, and its source is complete with one. -/
theorem source_of_checksum {edge : Edge} {c : Checksum} {source : NodePath} {sourceLocal : Path}
    (hresolve : v.graph.resolveExisting edge.source = some (source, sourceLocal))
    (hc : (sourceState env v edge).value.checksum = some c) :
    v.graph.edgeMiswiring edge = none ∧ ∃ root,
      (v.graph.nodes.lookup source).map (fun s => (s.state, s.currentChecksum)) =
        some (.complete, some root) := by
  unfold sourceState at hc
  cases hmiswiring : v.graph.edgeMiswiring edge with
  | some miswiring =>
    rw [hmiswiring] at hc
    cases miswiring <;> cases hc
  | none =>
    refine ⟨rfl, ?_⟩
    rw [hmiswiring, hresolve] at hc
    dsimp only at hc
    cases htarget : v.graph.resolveExisting edge.target with
    | none =>
      rw [htarget] at hc
      cases hc
    | some target =>
      rw [htarget] at hc
      dsimp only at hc
      split at hc
      · rename_i node targetNode hnode htargetNode
        rw [hnode]
        split at hc
        · cases hc
        · unfold evaluateSource at hc
          split at hc
          · cases hc
          · split at hc
            · cases hc
            · rename_i hcomplete
              rw [not_not] at hcomplete
              dsimp only at hc
              cases hchecksum : node.currentChecksum with
              | none =>
                rw [hchecksum] at hc
                dsimp only at hc
                split at hc <;> cases hc
              | some root => exact ⟨root, by rw [Option.map_some, hcomplete, hchecksum]⟩
      · cases hc

theorem rootEdgeOutcome_complete {config : CellConfig} {edge : Edge} {source : NodePath}
    {sourceLocal : Path} {c : Checksum}
    (hstate : (rootEdgeOutcome env v config edge source sourceLocal).value.state = .complete)
    (hc : (rootEdgeOutcome env v config edge source sourceLocal).value.checksum = some c) :
    ∃ delivered, (sourceState env v edge).value.checksum = some delivered ∧
      ((edge.sourceConversion = false ∧ sourceLocal = [] ∧
        v.graph.nodeCelltype source ≠ config.celltype) →
        (projection env v delivered [] (v.graph.nodeCelltype source) config.celltype
          (cellPolicy config)).value.state = .complete ∧
        (projection env v delivered [] (v.graph.nodeCelltype source) config.celltype
          (cellPolicy config)).value.checksum = some c) := by
  unfold rootEdgeOutcome at hstate hc
  rw [Evaluated.value_bind] at hstate hc
  cases hsource : (sourceState env v edge).value with
  | mk state checksum error =>
    rw [hsource] at hstate hc
    cases state with
    | complete =>
      dsimp only at hstate hc
      by_cases hconverts : (!edge.sourceConversion && decide (sourceLocal = []) &&
          decide (v.graph.nodeCelltype source ≠ config.celltype)) = true
      · rw [if_pos hconverts] at hstate hc
        cases checksum with
        | none => cases hc
        | some delivered =>
          dsimp only at hstate hc
          rw [Evaluated.value_bind] at hstate hc
          exact ⟨delivered, rfl, fun _ => ⟨hstate, hc⟩⟩
      · rw [if_neg hconverts] at hc
        refine ⟨c, hc, fun h => absurd ?_ hconverts⟩
        simp [h]
    | failed => cases error <;> cases hstate
    | _ => cases hstate

theorem ownOutcome_validated {fields : CellFields} {validator : String}
    (hvalidator : fields.config.validator = some validator) (hroot : fields.rootExpression = none)
    {c : Checksum} (hstate : (ownOutcome env v fields).value.state = .complete)
    (hc : (ownOutcome env v fields).value.checksum = some c) :
    ValidatedAs v.facts fields.config validator c := by
  unfold ownOutcome at hstate hc
  rw [hroot] at hstate hc
  cases hproducer : fields.rootProducer with
  | none =>
    rw [hproducer] at hstate
    cases hstate
  | some producer =>
    rw [hproducer] at hstate hc
    dsimp only at hstate hc
    have hchecked : (decide (producer.celltype ≠ fields.config.celltype) ||
        fields.config.validator.isSome) = true := by
      rw [hvalidator, Option.isSome_some, Bool.or_true]
    rw [if_pos hchecked, Evaluated.value_bind] at hstate hc
    exact validatedAs_of_projection hvalidator hstate hc

/-- What is held on the way does not change the result of a plain projection. -/
theorem value_directOutcome (config : CellConfig) (edge : Edge) (source : NodePath)
    (sourceLocal : Path) (checksum : Checksum) :
    let root := (v.graph.fusedProjectionSource source sourceLocal).getD
      (checksum, v.graph.nodeCelltype source, sourceLocal)
    (directOutcome env v config edge source sourceLocal checksum).value = .miswired ∨
      (directOutcome env v config edge source sourceLocal checksum).value = .ofProjected
        (projection env v root.1 root.2.2 root.2.1 config.celltype (cellPolicy config)).value := by
  intro root
  unfold directOutcome
  split
  · exact Or.inl rfl
  · refine Or.inr ?_
    dsimp only
    split
    · rw [Evaluated.value_bind]
      split
      · split <;> rfl
      · rfl
    · rfl

theorem directOutcome_validated {config : CellConfig} {validator : String}
    (hvalidator : config.validator = some validator) {edge : Edge} {source : NodePath}
    {sourceLocal : Path} {checksum c : Checksum}
    (hstate : (directOutcome env v config edge source sourceLocal checksum).value.state = .complete)
    (hc : (directOutcome env v config edge source sourceLocal checksum).value.checksum = some c) :
    ValidatedAs v.facts config validator c := by
  rcases value_directOutcome config edge source sourceLocal checksum with hvalue | hvalue
  · rw [hvalue] at hstate
    cases hstate
  · rw [hvalue] at hstate hc
    exact validatedAs_of_projection hvalidator hstate hc

/-- Is the root edge of a cell a plain projection of a complete source? -/
def PlainlyProjects (g : ContextGraph) (edge : Edge) (source : NodePath) (sourceLocal : Path)
    (checksum : Checksum) : Prop :=
  (g.nodes.lookup source).map (fun s => (s.state, s.currentChecksum)) =
      some (.complete, some checksum) ∧
    (decide (sourceLocal ≠ []) && (g.edgeMiswiring edge).isNone && !edge.sourceConversionBefore &&
      !edge.sourceConversion) = true

/-- The derivation of a cell with a root edge: a plain projection, or what the edge delivers. -/
theorem cellOutcome_rootEdge {fields : CellFields} {path : NodePath} {edge : Edge} {source : NodePath}
    {sourceLocal : Path} (hlookup : (v.graph.incomingFor path).lookup [] = some edge)
    (hresolve : v.graph.resolveExisting edge.source = some (source, sourceLocal)) :
    (∃ checksum, PlainlyProjects v.graph edge source sourceLocal checksum ∧
      cellOutcome env v [] path fields =
        directOutcome env v fields.config edge source sourceLocal checksum) ∨
    ((∀ checksum, ¬ PlainlyProjects v.graph edge source sourceLocal checksum) ∧
      cellOutcome env v [] path fields = rootEdgeOutcome env v fields.config edge source sourceLocal) := by
  unfold cellOutcome PlainlyProjects
  dsimp only
  rw [hlookup]
  dsimp only
  rw [hresolve]
  dsimp only
  split
  · rename_i checksum hshown
    rw [hshown]
    by_cases hplain : (decide (sourceLocal ≠ []) && (v.graph.edgeMiswiring edge).isNone &&
        !edge.sourceConversionBefore && !edge.sourceConversion) = true
    · exact Or.inl ⟨checksum, ⟨rfl, hplain⟩, if_pos hplain⟩
    · exact Or.inr ⟨fun _ h => hplain h.2, if_neg hplain⟩
  · rename_i hshown
    exact Or.inr ⟨fun checksum h => hshown checksum h.1, rfl⟩

/-- A cell of a validated form is complete with what its validator has let pass. -/
theorem cellOutcome_validated {fields : CellFields} {validator : String}
    (hvalidator : fields.config.validator = some validator) {errors : List Error} {path : NodePath}
    (hvalidates : v.graph.validates path fields = true) {c : Checksum}
    (hstate : (cellOutcome env v errors path fields).value.state = .complete)
    (hc : (cellOutcome env v errors path fields).value.checksum = some c) :
    ValidatedAs v.facts fields.config validator c := by
  unfold ContextGraph.validates at hvalidates
  cases errors with
  | cons e errors => cases hstate
  | nil =>
    cases hlookup : (v.graph.incomingFor path).lookup [] with
    | none =>
      unfold cellOutcome at hstate hc
      dsimp only at hstate hc
      rw [hlookup] at hstate hc hvalidates
      dsimp only at hstate hc hvalidates
      rw [Bool.and_eq_true, decide_eq_true_iff, Option.isNone_iff_eq_none] at hvalidates
      rw [if_pos hvalidates.1] at hstate hc
      exact ownOutcome_validated hvalidator hvalidates.2 hstate hc
    | some edge =>
      rw [hlookup] at hvalidates
      dsimp only at hvalidates
      cases hresolve : v.graph.resolveExisting edge.source with
      | none =>
        rw [hresolve] at hvalidates
        cases hvalidates
      | some r =>
        obtain ⟨source, sourceLocal⟩ := r
        rw [hresolve] at hvalidates
        dsimp only at hvalidates
        rw [Bool.and_eq_true, Bool.not_eq_true'] at hvalidates
        obtain ⟨hconversion, hform⟩ := hvalidates
        rcases @cellOutcome_rootEdge env v fields path edge source sourceLocal hlookup hresolve with
          ⟨checksum, -, hvalue⟩ | ⟨hplain, hvalue⟩
        · rw [hvalue] at hstate hc
          exact directOutcome_validated hvalidator hstate hc
        · rw [hvalue] at hstate hc
          obtain ⟨delivered, hdelivered, hconverted⟩ := rootEdgeOutcome_complete hstate hc
          by_cases hwhole : sourceLocal = []
          · rw [if_pos hwhole, decide_eq_true_iff] at hform
            obtain ⟨hstate', hc'⟩ := hconverted ⟨hconversion, hwhole, hform⟩
            exact validatedAs_of_projection hvalidator hstate' hc'
          · -- an edge that delivers a projection is a plain one
            rw [if_neg hwhole, Bool.not_eq_true'] at hform
            obtain ⟨hmiswiring, root, hshown⟩ := source_of_checksum hresolve hdelivered
            refine absurd ⟨hshown, ?_⟩ (hplain root)
            rw [hmiswiring, hconversion, hform]
            simpa using hwhole

/-! ## The forms of input without a validator -/

/-- A configuration with another validator. -/
def CellConfig.withValidator (validator language : Option String) (config : CellConfig) : CellConfig :=
  { config with validator := validator, validatorLanguage := language }

theorem rootEdgeOutcome_withValidator (validator language : Option String) (config : CellConfig)
    {edge : Edge} {source : NodePath} {sourceLocal : Path}
    (hform : (!edge.sourceConversion && decide (sourceLocal = []) &&
      decide (v.graph.nodeCelltype source ≠ config.celltype)) = false) :
    rootEdgeOutcome env v (config.withValidator validator language) edge source sourceLocal =
      rootEdgeOutcome env v config edge source sourceLocal := by
  have hform' : ¬ (!edge.sourceConversion && decide (sourceLocal = []) &&
      decide (v.graph.nodeCelltype source ≠ (config.withValidator validator language).celltype)) =
        true := Bool.eq_false_iff.mp hform
  unfold rootEdgeOutcome
  congr 1
  funext answer
  obtain ⟨state, checksum, error⟩ := answer
  cases state with
  | complete =>
    dsimp only
    rw [if_neg hform', if_neg (Bool.eq_false_iff.mp hform)]
  | _ => rfl

theorem joinSlots_withValidator (validator language : Option String) (config : CellConfig)
    (incoming : List (Path × Edge)) :
    joinSlots env v (config.withValidator validator language) incoming =
      joinSlots env v config incoming := by
  induction incoming with
  | nil => rfl
  | cons slot incoming ih =>
    obtain ⟨localPath, edge⟩ := slot
    unfold joinSlots
    rw [ih]
    rfl

theorem joinOutcome_withValidator (validator language : Option String) (fields : CellFields)
    (incoming : List (Path × Edge)) :
    joinOutcome env v { fields with config := fields.config.withValidator validator language }
      incoming = joinOutcome env v fields incoming := by
  unfold joinOutcome
  rw [joinSlots_withValidator]
  rfl

/-- The outcome of a cell of any other form does not depend on its validator. -/
theorem cellOutcome_withValidator (validator language : Option String) {fields : CellFields}
    {path : NodePath} (errors : List Error) (hvalidates : v.graph.validates path fields = false) :
    cellOutcome env v errors path
      { fields with config := fields.config.withValidator validator language } =
        cellOutcome env v errors path fields := by
  unfold ContextGraph.validates at hvalidates
  cases errors with
  | cons e errors => rfl
  | nil =>
    cases hlookup : (v.graph.incomingFor path).lookup [] with
    | none =>
      unfold cellOutcome
      dsimp only
      rw [hlookup] at hvalidates ⊢
      dsimp only at hvalidates ⊢
      by_cases hempty : v.graph.incomingFor path = []
      · rw [if_pos hempty, if_pos hempty]
        rw [decide_eq_true hempty, Bool.true_and] at hvalidates
        obtain ⟨expression, hroot⟩ := Option.isSome_iff_exists.mp
          (Option.isNone_eq_false_iff.mp hvalidates)
        unfold ownOutcome
        dsimp only
        rw [hroot]
      · rw [if_neg hempty, if_neg hempty]
        exact joinOutcome_withValidator _ _ fields _
    | some edge =>
      rw [hlookup] at hvalidates
      dsimp only at hvalidates
      cases hresolve : v.graph.resolveExisting edge.source with
      | none =>
        unfold cellOutcome
        dsimp only
        rw [hlookup]
        dsimp only
        rw [hresolve]
      | some r =>
        obtain ⟨source, sourceLocal⟩ := r
        rw [hresolve] at hvalidates
        dsimp only at hvalidates
        have hwhole : (!edge.sourceConversion && decide (sourceLocal = []) &&
            decide (v.graph.nodeCelltype source ≠ fields.config.celltype)) = false := by
          by_cases h : sourceLocal = []
          · rw [if_pos h] at hvalidates
            rwa [decide_eq_true h, Bool.and_true]
          · rw [decide_eq_false h, Bool.and_false, Bool.false_and]
        have hplain : ∀ checksum, ¬ PlainlyProjects v.graph edge source sourceLocal checksum := by
          rintro checksum ⟨-, hform⟩
          rw [Bool.and_eq_true, Bool.and_eq_true, Bool.and_eq_true, decide_eq_true_iff] at hform
          obtain ⟨⟨⟨hpart, -⟩, hbefore⟩, hconversion⟩ := hform
          rw [if_neg hpart, hbefore, hconversion] at hvalidates
          cases hvalidates
        rcases @cellOutcome_rootEdge env v fields path edge source sourceLocal hlookup hresolve with
          ⟨checksum, h, -⟩ | ⟨-, hvalue⟩
        · exact absurd h (hplain checksum)
        · rcases @cellOutcome_rootEdge env v
              { fields with config := fields.config.withValidator validator language }
              path edge source sourceLocal hlookup hresolve with ⟨checksum, h, -⟩ | ⟨-, hvalue'⟩
          · exact absurd h (hplain checksum)
          · rw [hvalue, hvalue']
            exact rootEdgeOutcome_withValidator _ _ _ hwhole

end Evaluation

/-! ## Settled Contexts -/

/-- A validator and a settled cell: the value of the cell has passed the validator, or another validator
would show the same. -/
structure ValidatorOf (env : Substrate) (ctx : Ctx) (path : NodePath) (fields : CellFields)
    (node : Node) : Prop where
  passed {validator : String} (named : fields.config.validator = some validator)
    (validates : ctx.graph.validates path fields = true) {c : Checksum}
    (complete : node.state = .complete) (shown : node.currentChecksum = some c) :
    ∃ r, ValidatedAs ctx.facts fields.config validator r ∧
      env.canonicalize r fields.config.celltype = c
  ignored (validates : ctx.graph.validates path fields = false) :
    ∀ validator language,
      (node.settle env (cellOutcome env ctx.view (ctx.outsideErrors path).sense path
        { fields with config := fields.config.withValidator validator language }).value).essence =
          node.essence

/-- In every reachable Context that is settled, a complete cell of a validated form shows what its
validator has let pass, and the validator of a cell of any other form has no effect, when every event of
the run keeps the wiring. -/
theorem reachable_validated {env : Substrate} {sys : System} (h : Reachable env KeepsWiring sys)
    (hsettled : sys.ctx.settled = true) {path : NodePath} {node : Node} {fields : CellFields}
    (hnode : sys.ctx.node? path = some node) (hbody : node.body = .cell fields) :
    ValidatorOf env sys.ctx path fields node := by
  cases (reachable_settling h).derived hsettled path node hnode with
  | transformer outcome body answers written => cases hbody.symm.trans body
  | @cell fields' body written =>
    obtain rfl := NodeBody.cell.inj (hbody.symm.trans body)
    refine ⟨?_, fun hvalidates validator language => ?_⟩
    · intro validator hnamed hvalidates c hcomplete hshown
      have hstate := (congrArg Node.state written).trans hcomplete
      have hchecksum := (congrArg Node.currentChecksum written).trans hshown
      obtain ⟨r, hr, hcanonical⟩ := Option.map_eq_some_iff.mp hchecksum
      refine ⟨r, cellOutcome_validated hnamed hvalidates hstate hr, ?_⟩
      rw [← hcanonical]
      unfold Node.celltype
      rw [hbody]
    · rw [@cellOutcome_withValidator env sys.ctx.view validator language fields path _ hvalidates]
      exact written

/-- A stored value passes the validator of its cell. -/
def checkOnce : List Event :=
  [.turn (.assign [.key "a"] (.cell
      { recipe := { celltype := .text, validator := some "check" }, input := .checksum ⟨10⟩ })) 0 [],
    .turn (.acceptFact (.expression ⟨10⟩ [] .text .text (some "check") none false false)
      (.result ⟨21⟩)) 0 []]

theorem checkOnce_runs : (System.run .fixed checkOnce {}).isSome = true := by decide +kernel

/-- The fields of the cell. -/
def checkedFields : CellFields :=
  { config := { celltype := .text, validator := some "check" }, rootProducer := some ⟨⟨10⟩, .text⟩ }

/-- The cell in the end. -/
def checkedNode : Node :=
  { ident := 0, body := .cell checkedFields, state := .complete, currentChecksum := some ⟨21⟩ }

theorem reachable_validated_checkOnce :
    ValidatorOf .fixed ((System.run .fixed checkOnce {}).get checkOnce_runs).ctx [.key "a"]
      checkedFields checkedNode :=
  reachable_validated (Reachable.of_run .start (by decide +kernel) checkOnce_runs)
    (by decide +kernel) (by rfl) rfl

end SeamlessWorkflow
