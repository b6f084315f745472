import SeamlessWorkflow.Proofs.Derivations
import SeamlessWorkflow.Proofs.WellWired
import SeamlessWorkflow.Library.PostOrder

/-!
# The record of a node

The state, the checksum, the exception and the block reason of a node are four fields. Every outcome
of a derivation sets them so that they fit each other, but for one thing: a cell that is left waiting
or blocked by its sources keeps the exception it has.
-/

namespace SeamlessWorkflow

/-- The four fields of a record fit each other. -/
structure Node.Fits (node : Node) : Prop where
  checksum : node.currentChecksum.isSome = true ↔ node.state = .complete
  exception : node.exception.isSome = true → node.state = .failed
  blocked : node.state = .blocked → node.blockReason.isSome = true
  clear : node.state ≠ .blocked → node.state ≠ .miswired → node.blockReason = none

instance (node : Node) : Decidable node.Fits :=
  decidable_of_iff ((node.currentChecksum.isSome = true ↔ node.state = .complete) ∧
      (node.exception.isSome = true → node.state = .failed) ∧
      (node.state = .blocked → node.blockReason.isSome = true) ∧
      (node.state ≠ .blocked → node.state ≠ .miswired → node.blockReason = none))
    ⟨fun ⟨a, b, c, d⟩ => ⟨a, b, c, d⟩, fun ⟨a, b, c, d⟩ => ⟨a, b, c, d⟩⟩

/-- What an outcome writes fits. -/
structure Outcome.Fits (outcome : Outcome) : Prop where
  checksum : outcome.checksum.isSome = true ↔ outcome.state = .complete
  exception : ∀ e, outcome.exception = some (some e) → outcome.state = .failed
  blocked : outcome.state = .blocked → outcome.blockReason.isSome = true
  clear : outcome.state ≠ .blocked → outcome.state ≠ .miswired → outcome.blockReason = none

/-- An outcome that fits makes the record fit, when the exception it keeps is none. -/
theorem Outcome.Fits.settle {env : Substrate} {outcome : Outcome} {node : Node} (h : outcome.Fits)
    (hkept : outcome.exception = none → node.exception = none) : (node.settle env outcome).Fits := by
  refine ⟨?_, fun he => ?_, h.blocked, h.clear⟩
  · show (outcome.checksum.map _).isSome = true ↔ outcome.state = .complete
    rw [Option.isSome_map]
    exact h.checksum
  · have he : (outcome.exception.getD node.exception).isSome = true := he
    cases hx : outcome.exception with
    | none =>
      rw [hx, Option.getD_none, hkept hx] at he
      cases he
    | some written =>
      cases written with
      | none => rw [hx] at he; cases he
      | some e => exact h.exception e hx

/-! ## Outcomes -/

/-- The answer of an Expression has a checksum when it is complete, and an error only when it is
failed. -/
structure Projected.Fits (p : Projected) : Prop where
  checksum : p.checksum.isSome = true ↔ p.state = .complete
  error : p.error.isSome = true → p.state = .failed
  state : p.state = .complete ∨ p.state = .failed ∨ p.state = .waiting

theorem fits_demand (v : View) (key : FactKey) : (demand v key).value.Fits := by
  unfold demand
  dsimp only
  split
  · exact ⟨by simp, by simp, Or.inl rfl⟩
  · exact ⟨by simp, by simp, Or.inr (Or.inl rfl)⟩
  · exact ⟨by simp, by simp, Or.inr (Or.inr rfl)⟩

theorem fits_expressionStep (env : Substrate) (v : View) (checksum : Checksum) (localPath : Path)
    (celltype targetType : Celltype) (policy : Policy) :
    (expressionStep env v checksum localPath celltype targetType policy).value.Fits := by
  unfold expressionStep
  split
  · exact ⟨by simp, by simp, Or.inr (Or.inl rfl)⟩
  · exact fits_demand _ _

theorem fits_projection (env : Substrate) (v : View) (checksum : Checksum) (localPath : Path)
    (celltype targetType : Celltype) (policy : Policy) :
    (projection env v checksum localPath celltype targetType policy).value.Fits := by
  unfold projection
  split
  · exact fits_expressionStep ..
  · rw [Evaluated.value_bind]
    split
    · exact fits_expressionStep ..
    · exact fits_expressionStep ..

namespace Outcome

theorem fits_miswired : Outcome.miswired.Fits := ⟨by simp [miswired], by simp [miswired],
  by simp [miswired], by simp [miswired]⟩

theorem fits_failed (e : Option Error) : (Outcome.failed e).Fits :=
  ⟨by simp [failed], by simp [failed], by simp [failed], by simp [failed]⟩

theorem fits_complete (c : Checksum) : (Outcome.complete (some c)).Fits :=
  ⟨by simp [complete], by simp [complete], by simp [complete], by simp [complete]⟩

theorem fits_ofProjected {p : Projected} (h : p.Fits) : (Outcome.ofProjected p).Fits := by
  refine ⟨h.checksum, fun e he => ?_, fun hb => ?_, fun _ _ => rfl⟩
  · have herror : p.error = some e := Option.some.inj he
    exact h.error (by rw [herror]; rfl)
  · have hb : p.state = .blocked := hb
    rcases h.state with hs | hs | hs <;> rw [hs] at hb <;> cases hb

end Outcome

theorem fits_upstreamOutcome (state : SourceState) : (upstreamOutcome state).Fits := by
  cases state <;> exact ⟨by simp [upstreamOutcome], by simp [upstreamOutcome],
    by simp [upstreamOutcome], by simp [upstreamOutcome]⟩

theorem slotReason_ne_unwired (state : SourceState) : slotReason state ≠ some .unwired := by
  cases state <;> simp [slotReason]

/-- No slot is recorded as unwired. -/
theorem slotReasons_ne_unwired (slots : List (Path × SourceState)) :
    ∀ reasons : List (Component × Reason), (∀ entry ∈ reasons, entry.2 ≠ .unwired) →
      ∀ entry ∈ slots.foldl (fun reasons slot =>
        match slotReason slot.2, slot.1 with
        | some reason, k :: _ => Dict.setItem k reason reasons
        | _, _ => reasons) reasons, entry.2 ≠ .unwired := by
  induction slots with
  | nil => exact fun _ h => h
  | cons slot slots ih =>
    intro reasons h
    refine ih _ ?_
    dsimp only
    split
    · rename_i reason k _ hreason _
      intro entry he
      rcases Dict.mem_setItem he with rfl | he
      · rintro rfl
        exact slotReason_ne_unwired _ hreason
      · exact h entry he
    · exact h

theorem fits_pendingOutcome (pending : List (Path × SourceState)) : (pendingOutcome pending).Fits := by
  unfold pendingOutcome
  dsimp only
  have hnone := slotReasons_ne_unwired pending [] (by simp)
  generalize hr : pending.foldl _ ([] : List (Component × Reason)) = reasons at hnone ⊢
  have hunwired : reasons.any (fun entry => decide (entry.2 = .unwired)) = false := by
    rw [List.any_eq_false]
    intro entry he
    simpa using hnone entry he
  rw [hunwired]
  cases hm : reasons.any fun entry => decide (entry.2 = .miswired) with
  | true =>
    exact ⟨by simp, by simp, by simp, by simp⟩
  | false =>
    by_cases hempty : reasons = []
    · subst hempty
      exact ⟨by simp, by simp, by simp, by simp⟩
    · refine ⟨?_, ?_, ?_, ?_⟩ <;> simp [hempty]

theorem fits_runOutcome (record : RunRecord) : record.outcome.Fits := by
  unfold RunRecord.outcome
  split
  · exact Outcome.fits_failed _
  · exact Outcome.fits_complete _
  · exact ⟨by simp, by simp, by simp, by simp⟩

theorem fits_verdictOutcome (verdict : InputVerdict) : verdict.outcome.Fits := by
  cases verdict with
  | failed e => exact Outcome.fits_failed _
  | pending reasons =>
    dsimp only [InputVerdict.outcome]
    generalize firstReason reasons = reason
    cases reason <;> exact ⟨by simp [Reason.nodeState], by simp [Reason.nodeState],
      by simp [Reason.nodeState], by simp [Reason.nodeState]⟩
  | ready code pins => exact ⟨by simp [InputVerdict.outcome], by simp [InputVerdict.outcome],
      by simp [InputVerdict.outcome], by simp [InputVerdict.outcome]⟩

/-! ## Sources -/

/-- A delivery that is complete has a checksum. -/
def SourceResult.Delivers (r : SourceResult) : Prop := r.state = .complete → r.checksum.isSome = true

theorem toSource_eq_complete {state : NodeState} : state.toSource = .complete ↔ state = .complete := by
  cases state <;> simp [NodeState.toSource]

/-- A result of a deep step that is complete has a checksum. -/
def Projected.Delivers (p : Projected) : Prop := p.state = .complete → p.checksum.isSome = true

/-- The rest of the conversions in front of a deep step delivers. -/
theorem delivers_deepPrefixRest {env : Substrate} {v : View} {edge : Edge} {sourceNode : NodePath}
    {before : List Celltype} {index : Nat} {converted : Celltype}
    (ih : ∀ c, (deepPrefix env v edge sourceNode before (index + 1) converted c).value.Delivers)
    {p : Projected} (hp : p.Delivers) : (match p.state, p.checksum with
      | .complete, some c => do
        Evaluated.hold (linkRecipe edge index ⟨.node sourceNode, converted, []⟩) c
        deepPrefix env v edge sourceNode before (index + 1) converted c
      | _, _ => pure { p with checksum := none } : Evaluated Projected).value.Delivers := by
  split
  · rw [Evaluated.value_bind]
    exact ih _
  · rename_i hother
    intro hs
    obtain ⟨c, hc⟩ := Option.isSome_iff_exists.mp (hp hs)
    exact absurd hc (hother c hs)

theorem delivers_deepPrefix (env : Substrate) (v : View) (edge : Edge) (sourceNode : NodePath)
    (before : List Celltype) : ∀ index current checksum,
      (deepPrefix env v edge sourceNode before index current checksum).value.Delivers := by
  induction before with
  | nil => exact fun _ _ _ _ => rfl
  | cons converted before ih =>
    intro index current checksum
    unfold deepPrefix
    dsimp only
    split
    · exact delivers_deepPrefixRest (ih _ _) fun hs => (fits_projection ..).checksum.mpr hs
    · exact @delivers_deepPrefixRest _ _ _ _ _ _ _ (ih _ _) ⟨.complete, some checksum, none⟩ fun _ => rfl

theorem delivers_evaluateDeepStep (env : Substrate) (v : View) (edge : Edge) (sourceNode : NodePath)
    (checksum : Checksum) (rootType : Celltype) (localPath : Path) (deep : DeepSplit)
    (scratch materialize : Bool) : (evaluateDeepStep env v edge sourceNode checksum rootType localPath
      deep scratch materialize).value.Delivers := by
  unfold evaluateDeepStep
  rw [Evaluated.value_bind]
  split
  · dsimp only
    rw [Evaluated.value_bind]
    split
    · split
      · exact fun _ => rfl
      · exact fun _ => rfl
    · rename_i hother
      intro hs
      obtain ⟨c, hc⟩ := Option.isSome_iff_exists.mp ((fits_projection ..).checksum.mpr hs)
      exact absurd hc (hother c hs)
  · exact delivers_deepPrefix env v edge sourceNode _ _ _ _

theorem delivers_evaluateRuns (env : Substrate) (v : View) (edge : Edge) (sourceNode : NodePath)
    (links : List Link) (chainOffset : Nat) (scratch materialize : Bool) (runs : List Run) :
    ∀ checksum, (evaluateRuns env v edge sourceNode links chainOffset scratch materialize runs
      checksum).value.Delivers := by
  induction runs with
  | nil => exact fun _ _ => rfl
  | cons run runs ih =>
    intro checksum
    unfold evaluateRuns
    dsimp only
    split
    · exact fun h => absurd h (by simp)
    · rw [Evaluated.value_bind]
      have hp := fits_projection env v checksum run.path run.inputCelltype run.celltype
        { scratch := if decide (runs = []) then scratch else true
          materialize := if decide (runs = []) then materialize else false }
      split
      · split
        · exact fun _ => rfl
        · rw [Evaluated.value_bind]
          exact ih _
      · rename_i hother
        intro hs
        have hs := toSource_eq_complete.mp hs
        obtain ⟨c, hc⟩ := Option.isSome_iff_exists.mp (hp.checksum.mpr hs)
        exact absurd hc (hother c hs)

theorem delivers_evaluateRecipe (env : Substrate) (v : View) (edge : Edge) (sourceNode : NodePath)
    (rootChecksum : Checksum) (rootType : Celltype) (sourceLocal : Path)
    (steps : List ConversionStep) (chainOffset : Nat) (scratch materialize : Bool) :
    (evaluateRecipe env v edge sourceNode rootChecksum rootType sourceLocal steps chainOffset scratch
      materialize).value.Delivers := by
  unfold evaluateRecipe
  split
  · exact delivers_evaluateRuns env v edge sourceNode _ _ _ _ _ _
  · split
    · rw [Evaluated.value_bind]
      have hp := fits_projection env v rootChecksum sourceLocal rootType
        (projectedCelltype rootType sourceLocal) { scratch, materialize }
      exact fun hs => hp.checksum.mpr (toSource_eq_complete.mp hs)
    · exact fun _ => rfl

theorem incompleteSource_ne_complete {node : Node} (h : node.state ≠ .complete) :
    incompleteSource node ≠ .complete := by
  have hstate : node.state.toSource ≠ .complete := mt toSource_eq_complete.mp h
  unfold incompleteSource
  split
  · split
    · split
      · simp
      · split
        · simp
        · split
          · simp
          · exact hstate
    · exact hstate
  · simp
  · exact hstate

/-- What an edge delivers has a checksum, unless its source is complete without one. -/
theorem delivers_sourceState (env : Substrate) (v : View) (edge : Edge)
    (hsource : ∀ path localPath node, v.graph.resolveExisting edge.source = some (path, localPath) →
      v.graph.nodes.lookup path = some node → node.state = .complete →
        node.currentChecksum.isSome = true) : (sourceState env v edge).value.Delivers := by
  unfold sourceState
  split
  · exact fun h => absurd h (by simp)
  · exact fun h => absurd h (by simp)
  · split
    · rename_i sourceNode sourceLocal targetPath targetLocal hs ht
      split
      · rename_i source target hsnode htnode
        split
        · exact fun h => absurd h (by simp)
        · unfold evaluateSource
          split
          · exact fun h => absurd h (by simp)
          · split
            · rename_i hstate
              exact fun h => absurd h (incompleteSource_ne_complete hstate)
            · rename_i hstate
              have hstate : source.state = .complete := not_not.mp hstate
              obtain ⟨c, hc⟩ := Option.isSome_iff_exists.mp (hsource _ _ _ hs hsnode hstate)
              dsimp only
              rw [hc]
              dsimp only
              split
              · exact delivers_evaluateRecipe env v edge sourceNode _ _ _ _ _ _ _
              · rw [Evaluated.value_bind]
                split
                · exact delivers_evaluateRecipe env v edge sourceNode _ _ _ _ _ _ _
                · rename_i hother
                  intro hs
                  have hs := toSource_eq_complete.mp hs
                  obtain ⟨c, hc⟩ := Option.isSome_iff_exists.mp (delivers_evaluateDeepStep env v edge
                    sourceNode _ _ sourceLocal _ _ _ hs)
                  exact absurd hc (hother c hs)
      · exact fun h => absurd h (by simp)
    · exact fun h => absurd h (by simp)

/-! ## Cells -/

theorem fits_directOutcome (env : Substrate) (v : View) (config : CellConfig) (edge : Edge)
    (sourcePath : NodePath) (sourceLocal : Path) (sourceChecksum : Checksum) :
    (directOutcome env v config edge sourcePath sourceLocal sourceChecksum).value.Fits := by
  unfold directOutcome
  split
  · exact Outcome.fits_miswired
  · dsimp only
    split
    · rw [Evaluated.value_bind]
      split
      · split
        · exact Outcome.fits_ofProjected (fits_projection ..)
        · exact Outcome.fits_ofProjected (fits_projection ..)
      · exact Outcome.fits_ofProjected (fits_projection ..)
    · exact Outcome.fits_ofProjected (fits_projection ..)

theorem fits_rootEdgeOutcome {env : Substrate} {v : View} {config : CellConfig} {edge : Edge}
    {sourcePath : NodePath} {sourceLocal : Path} (h : (sourceState env v edge).value.Delivers) :
    (rootEdgeOutcome env v config edge sourcePath sourceLocal).value.Fits := by
  unfold rootEdgeOutcome
  rw [Evaluated.value_bind]
  split
  · rename_i checksum hs
    obtain ⟨c, hc⟩ := Option.isSome_iff_exists.mp (h hs)
    rw [hc]
    dsimp only
    split
    · exact Outcome.fits_ofProjected (fits_projection ..)
    · exact Outcome.fits_complete c
  · split
    · exact Outcome.fits_failed _
    · exact fits_upstreamOutcome .failed
  · exact Outcome.fits_miswired
  · exact fits_upstreamOutcome (sourceState env v edge).value.state

theorem fits_celljoinOutcome (env : Substrate) (v : View) (config : CellConfig)
    (root : Option Checksum) (members : List (Component × Checksum)) :
    (celljoinOutcome env v config root members).value.Fits := by
  unfold celljoinOutcome
  dsimp only
  generalize (if config.celltype = .folder then Celltype.deepfolder else config.celltype) = celltype
  cases env.celljoin celltype root members with
  | error e => exact Outcome.fits_failed _
  | ok joined => exact Outcome.fits_ofProjected (fits_demand ..)

theorem fits_joinOutcome (env : Substrate) (v : View) (fields : CellFields)
    (incoming : List (Path × Edge)) : (joinOutcome env v fields incoming).value.Fits := by
  unfold joinOutcome
  rw [Evaluated.value_bind]
  split
  · exact Outcome.fits_failed _
  · dsimp only
    split
    · exact fits_pendingOutcome _
    · rw [Evaluated.value_bind]
      have hroot : ∀ outcome, (joinRoot env v fields.config fields.rootProducer).value = .inr outcome →
          outcome.Fits := by
        unfold joinRoot
        intro outcome ho
        split at ho
        · cases ho
        · split at ho
          · cases ho
          · rw [Evaluated.value_bind] at ho
            split at ho
            · cases ho
            · cases ho
              exact Outcome.fits_failed _
            · cases ho
              exact ⟨by simp, by simp, by simp, by simp⟩
      split
      · rename_i outcome ho
        exact hroot outcome ho
      · exact fits_celljoinOutcome ..

theorem fits_ownOutcome (env : Substrate) (v : View) (fields : CellFields) :
    (ownOutcome env v fields).value.Fits := by
  unfold ownOutcome
  split
  · split
    · exact Outcome.fits_complete _
    · exact Outcome.fits_failed _
  · split
    · exact ⟨by simp, by simp, by simp, by simp⟩
    · split
      · rw [Evaluated.value_bind]
        exact Outcome.fits_ofProjected (fits_projection ..)
      · exact Outcome.fits_complete _

/-! ## What a node is derived from -/

/-- What an edge delivers does not decide the cell that it ends at: its source is not known, or is blocked
itself, or has failed without an error (`_apply_upstream_state`). -/
def SourceResult.HoldsBack (r : SourceResult) : Prop :=
  r.state ≠ .complete ∧ r.state ≠ .miswired ∧ (r.state = .failed → r.error = none)

instance (r : SourceResult) : Decidable r.HoldsBack := inferInstanceAs (Decidable (_ ∧ _ ∧ _))

/-- A join slot that is not known. -/
def Slot.isPending : Slot → Bool
  | .pending _ _ => true
  | _ => false

/-- A join slot that has failed. -/
def Slot.hasFailed : Slot → Bool
  | .failed _ => true
  | _ => false

/-- The sources of a cell leave it waiting or blocked: its root edge holds it back, or a join slot that
is not known does (`_apply_pending`). -/
def View.HoldsBack (env : Substrate) (v : View) (path : NodePath) (fields : CellFields) : Prop :=
  match (v.graph.incomingFor path).lookup [] with
  | some edge => (v.graph.resolveExisting edge.source).isSome = true ∧
      (sourceState env v edge).value.HoldsBack
  | none =>
    let slots := (joinSlots env v fields.config (v.graph.incomingFor path)).value
    slots.any Slot.isPending = true ∧ slots.any Slot.hasFailed = false

instance (env : Substrate) (v : View) (path : NodePath) (fields : CellFields) :
    Decidable (v.HoldsBack env path fields) := by
  unfold View.HoldsBack
  split <;> infer_instance

/-- No source of a node is complete without a checksum. -/
def View.SourcesHold (v : View) (path : NodePath) : Prop :=
  ∀ source ∈ v.graph.sources path, ∀ node ∈ v.graph.nodes.lookup source, node.state = .complete →
    node.currentChecksum.isSome = true

instance (v : View) (path : NodePath) : Decidable (v.SourcesHold path) := by
  unfold View.SourcesHold
  infer_instance

/-- Is a cell derived? -/
def Derivation.ofCell (d : Derivation) : Bool :=
  (d.view.graph.nodes.lookup d.path).elim false Node.isCell

/-- A cell that stores an exception, and that no mount shows an error for, is not left waiting or blocked
by its sources, and no source is complete without a checksum. -/
structure Derivation.Settles (env : Substrate) (d : Derivation) : Prop where
  exception : ∀ node ∈ d.view.graph.nodes.lookup d.path, ∀ fields ∈ node.cellFields,
    node.exception.isSome = true → d.senseErrors = [] → ¬ d.view.HoldsBack env d.path fields
  sources : d.view.SourcesHold d.path

instance (env : Substrate) (d : Derivation) : Decidable (d.Settles env) :=
  decidable_of_iff ((∀ node ∈ d.view.graph.nodes.lookup d.path, ∀ fields ∈ node.cellFields,
    node.exception.isSome = true → d.senseErrors = [] → ¬ d.view.HoldsBack env d.path fields) ∧
      d.view.SourcesHold d.path) ⟨fun h => ⟨h.1, h.2⟩, fun h => ⟨h.exception, h.sources⟩⟩

/-! ## The outcome of a cell -/

/-- An outcome writes the exception of its node. -/
def Outcome.Writes (outcome : Outcome) : Prop := outcome.exception.isSome = true

theorem writes_directOutcome (env : Substrate) (v : View) (config : CellConfig) (edge : Edge)
    (sourcePath : NodePath) (sourceLocal : Path) (sourceChecksum : Checksum) :
    (directOutcome env v config edge sourcePath sourceLocal sourceChecksum).value.Writes := by
  unfold directOutcome
  split
  · rfl
  · dsimp only
    split
    · rw [Evaluated.value_bind]
      split
      · split <;> rfl
      · rfl
    · rfl

theorem writes_celljoinOutcome (env : Substrate) (v : View) (config : CellConfig)
    (root : Option Checksum) (members : List (Component × Checksum)) :
    (celljoinOutcome env v config root members).value.Writes := by
  unfold celljoinOutcome
  dsimp only
  split <;> rfl

theorem writes_ownOutcome (env : Substrate) (v : View) (fields : CellFields) :
    (ownOutcome env v fields).value.Writes := by
  unfold ownOutcome
  split
  · split <;> rfl
  · split
    · rfl
    · split <;> rfl

theorem writes_joinRoot {env : Substrate} {v : View} {config : CellConfig}
    {producer : Option ConstantProducer} {outcome : Outcome}
    (h : (joinRoot env v config producer).value = .inr outcome) : outcome.Writes := by
  unfold joinRoot at h
  split at h
  · cases h
  · split at h
    · cases h
    · rw [Evaluated.value_bind] at h
      split at h
      · cases h
      · cases h
        rfl
      · cases h
        rfl

theorem writes_rootEdgeOutcome {env : Substrate} {v : View} {config : CellConfig} {edge : Edge}
    {sourcePath : NodePath} {sourceLocal : Path} (h : ¬ (sourceState env v edge).value.HoldsBack) :
    (rootEdgeOutcome env v config edge sourcePath sourceLocal).value.Writes := by
  unfold rootEdgeOutcome
  rw [Evaluated.value_bind]
  generalize (sourceState env v edge).value = source at h ⊢
  split
  · dsimp only
    split
    · split <;> rfl
    · rfl
  · rename_i hstate
    split
    · rfl
    · rename_i herror
      exact absurd ⟨by simp [hstate], by simp [hstate], fun _ => herror⟩ h
  · rfl
  · rename_i hcomplete hfailed hmiswired
    exact absurd ⟨fun hs => hcomplete hs, fun hs => hmiswired hs, fun hs => absurd hs hfailed⟩ h

theorem writes_joinOutcome {env : Substrate} {v : View} {fields : CellFields}
    {incoming : List (Path × Edge)} (h : ¬ ((joinSlots env v fields.config incoming).value.any
      Slot.isPending = true ∧ (joinSlots env v fields.config incoming).value.any Slot.hasFailed = false)) :
    (joinOutcome env v fields incoming).value.Writes := by
  unfold joinOutcome
  rw [Evaluated.value_bind]
  generalize (joinSlots env v fields.config incoming).value = slots at h ⊢
  split
  · rfl
  · rename_i hfailed
    dsimp only
    have hnone : slots.any Slot.hasFailed = false := by
      rw [List.any_eq_false]
      intro slot hslot
      have := List.findSome?_eq_none_iff.mp hfailed slot hslot
      cases slot with
      | failed e => cases this
      | _ => simp [Slot.hasFailed]
    split
    · rename_i hpending
      refine absurd ⟨?_, hnone⟩ h
      obtain ⟨entry, hentry⟩ := List.exists_mem_of_ne_nil _ hpending
      obtain ⟨slot, hslot, heq⟩ := List.mem_filterMap.mp hentry
      refine List.any_eq_true.mpr ⟨slot, hslot, ?_⟩
      cases slot with
      | pending localPath state => rfl
      | _ => cases heq
    · rw [Evaluated.value_bind]
      split
      · rename_i outcome houtcome
        exact writes_joinRoot houtcome
      · exact writes_celljoinOutcome ..

/-- A cell that its sources do not leave waiting or blocked gets a new exception, or none. -/
theorem writes_cellOutcome {env : Substrate} {v : View} {senseErrors : List Error} {path : NodePath}
    {fields : CellFields} (h : senseErrors = [] → ¬ v.HoldsBack env path fields) :
    (cellOutcome env v senseErrors path fields).value.Writes := by
  unfold cellOutcome
  split
  · rfl
  · replace h := h rfl
    unfold View.HoldsBack at h
    dsimp only
    split
    · rename_i edge hedge
      rw [hedge] at h
      dsimp only at h
      split
      · rfl
      · rename_i sourcePath sourceLocal hs
        rw [hs] at h
        have hroot : ¬ (sourceState env v edge).value.HoldsBack := fun hback => h ⟨rfl, hback⟩
        split
        · split
          · exact writes_directOutcome ..
          · exact writes_rootEdgeOutcome hroot
        · exact writes_rootEdgeOutcome hroot
    · rename_i hedge
      rw [hedge] at h
      split
      · exact writes_ownOutcome ..
      · exact writes_joinOutcome h

theorem fits_cellOutcome {env : Substrate} {v : View} {path : NodePath} (senseErrors : List Error)
    (fields : CellFields) (h : v.SourcesHold path) :
    (cellOutcome env v senseErrors path fields).value.Fits := by
  unfold cellOutcome
  split
  · exact Outcome.fits_failed _
  · dsimp only
    split
    · rename_i edge hedge
      split
      · exact Outcome.fits_miswired
      · rename_i sourcePath sourceLocal hs
        have hmem : sourcePath ∈ v.graph.sources path := by
          have hentry : (([] : Path), edge) ∈ v.graph.incomingFor path := by
            obtain ⟨before, after, he, -⟩ := List.lookup_eq_some_iff.mp hedge
            rw [he]
            simp
          exact List.mem_filterMap.mpr ⟨([], edge), hentry, by rw [hs]; rfl⟩
        have hdelivers : (sourceState env v edge).value.Delivers := by
          refine delivers_sourceState env v edge fun p l node hr hnode hstate => ?_
          obtain ⟨rfl, rfl⟩ := Prod.mk.inj (Option.some.inj (hs.symm.trans hr))
          exact h _ hmem node hnode hstate
        split
        · split
          · exact fits_directOutcome ..
          · exact fits_rootEdgeOutcome hdelivers
        · exact fits_rootEdgeOutcome hdelivers
    · split
      · exact fits_ownOutcome ..
      · exact fits_joinOutcome ..

/-! ## The derivation of a node -/

/-- A node that is derived from a state that settles it has a record that fits. -/
theorem fits_deriveNode {env : Substrate} {ctx : Ctx} {path : NodePath}
    (h : ∀ d ∈ (ctx.deriveNode env path).derivations, d.Settles env) {node : Node}
    (hnode : (ctx.deriveNode env path).node? path = some node) : node.Fits := by
  have hsettles : Derivation.Settles env
      ⟨path, ctx.view, (ctx.sessionsFor path).filterMap MountSession.senseError⟩ := by
    rw [derivations_deriveNode] at h
    exact h _ List.mem_cons_self
  unfold Ctx.deriveNode at hnode
  dsimp only at hnode
  have hview : (ctx.noteDerivation path).view = ctx.view := rfl
  have hsessions : (ctx.noteDerivation path).sessionsFor path = ctx.sessionsFor path := rfl
  have hnodes : ∀ q, (ctx.noteDerivation path).node? q = ctx.node? q := fun _ => rfl
  generalize ctx.noteDerivation path = noted at hnode hview hsessions hnodes
  cases hold : noted.node? path with
  | none =>
    rw [hold] at hnode
    exact absurd (hold.symm.trans hnode) (by simp)
  | some old =>
    rw [hold] at hnode
    cases hbody : old.body with
    | cell fields =>
      simp only [hbody] at hnode
      rw [node?_deriveCell, if_pos rfl, hold, hview, hsessions] at hnode
      obtain rfl := Option.some.inj hnode
      refine (fits_cellOutcome _ fields hsettles.sources).settle fun hkept => ?_
      have hfields : old.cellFields = some fields := by simp [Node.cellFields, hbody]
      by_contra hexception
      have hwrites := writes_cellOutcome fun hsense =>
        hsettles.exception old ((hnodes path).symm.trans hold) fields hfields
          (Option.isSome_iff_ne_none.mpr hexception) hsense
      rw [Outcome.Writes, hkept] at hwrites
      cases hwrites
    | transformer fields =>
      simp only [hbody] at hnode
      obtain ⟨outcome, hsettled, hverdict⟩ := (transformerDerived env path old fields noted).outcome
      rw [hsettled, if_pos rfl, hold] at hnode
      obtain rfl := Option.some.inj hnode
      -- every outcome of a transformer writes the exception
      have houtcome : outcome.Fits ∧ outcome.exception ≠ none := by
        split at hverdict
        · obtain ⟨record, -, -, rfl⟩ := hverdict
          refine ⟨fits_runOutcome record, ?_⟩
          unfold RunRecord.outcome
          split <;> simp [Outcome.failed, Outcome.complete]
        · rw [hverdict]
          refine ⟨fits_verdictOutcome _, ?_⟩
          unfold InputVerdict.outcome
          split <;> simp [Outcome.failed]
      exact houtcome.1.settle fun hkept => absurd hkept houtcome.2

/-! ## The derivation of a graph -/

/-- Every node is derived. -/
theorem mem_derivationOrder {g : ContextGraph} {sorted : List NodePath}
    (hsorted : sortPaths g.nodes.keys = some sorted) {path : NodePath} (hpath : path ∈ g.nodes) :
    path ∈ g.derivationOrder sorted := by
  have hmem : ∀ p, p ∈ sorted ↔ p ∈ g.nodes := by
    intro p
    unfold sortPaths at hsorted
    split at hsorted
    · rw [← Option.some.inj hsorted, List.mem_insertionSort]
      exact AList.mem_keys.symm
    · cases hsorted
  refine (PostOrder.order_spec fun p _ source hs => ?_).1 path ((hmem path).mpr hpath)
  obtain ⟨entry, -, hr⟩ := List.mem_filterMap.mp hs
  obtain ⟨r, hread, rfl⟩ := Option.map_eq_some_iff.mp hr
  exact (hmem r.1).mpr (ContextGraph.resolveExisting_mem (l := r.2) hread)

theorem node?_deriveGraph (env : Substrate) (sorted : List NodePath) (ctx : Ctx) (q : NodePath) :
    (ctx.deriveGraph env sorted).node? q = ((ctx.graph.derivationOrder sorted).foldl
      (fun ctx path => ctx.deriveNode env path) ctx).node? q := by
  have hruns : ∀ (paths : List NodePath) (ctx : Ctx),
      (paths.foldl (fun ctx path => ctx.updateRuntime path) ctx).graph = ctx.graph := by
    intro paths
    induction paths with
    | nil => exact fun _ => rfl
    | cons path paths ih => exact fun ctx => (ih _).trans (graph_updateRuntime ctx path)
  refine node?_of_graph ?_ q
  unfold Ctx.deriveGraph
  dsimp only
  rw [graph_syncSupersededRefholds, hruns, graph_pruneFacts]
  exact (graph_syncRefholds ..).trans (graph_syncRefholds ..)

end SeamlessWorkflow
