import SeamlessWorkflow.Proofs.NodeRecords
import SeamlessWorkflow.Proofs.WiringResults

/-!
# The block reasons of joins

The block reason of a join has a key for every slot that is not complete: the component that the target
of an edge has behind the path of the cell. Only derivation makes block reasons.
-/

namespace SeamlessWorkflow

/-- The keys of a block reason are components of targets of edges, behind a path. -/
def BlockReason.Names (edges : List Edge) (path : NodePath) (reason : BlockReason) : Prop :=
  match reason with
  | .one _ => True
  | .slots reasons => ∀ entry ∈ reasons, ∃ edge ∈ edges, path ++ [entry.1] <+: edge.target

/-! ## The outcome of a cell -/

def Outcome.Names (edges : List Edge) (path : NodePath) (outcome : Outcome) : Prop :=
  ∀ reason ∈ outcome.blockReason, reason.Names edges path

section Outcomes

variable {edges : List Edge} {path : NodePath} {env : Substrate} {v : View}

theorem Outcome.names_of_none {outcome : Outcome} (h : outcome.blockReason = none) :
    outcome.Names edges path := fun _ hreason => by
  rw [h] at hreason
  cases hreason

theorem names_upstreamOutcome (state : SourceState) : (upstreamOutcome state).Names edges path := by
  intro reason hreason
  cases state <;> cases hreason <;> trivial

/-- The keys of the reasons are the slots. -/
theorem mem_slotReasons {slots : List (Path × SourceState)} :
    ∀ {reasons : List (Component × Reason)} {entry : Component × Reason},
      entry ∈ slots.foldl (fun reasons slot =>
        match slotReason slot.2, slot.1 with
        | some reason, k :: _ => Dict.setItem k reason reasons
        | _, _ => reasons) reasons →
        entry ∈ reasons ∨ ∃ slot ∈ slots, slot.1.head? = some entry.1 := by
  induction slots with
  | nil => exact fun h => Or.inl h
  | cons slot slots ih =>
    intro reasons entry h
    rcases ih h with h | ⟨other, hother, hhead⟩
    · dsimp only at h
      split at h
      · rename_i reason k _ _ hslot
        rcases Dict.mem_setItem h with rfl | h
        · exact Or.inr ⟨slot, List.mem_cons_self .., by rw [hslot]; rfl⟩
        · exact Or.inl h
      · exact Or.inl h
    · exact Or.inr ⟨other, List.mem_cons_of_mem _ hother, hhead⟩

theorem names_pendingOutcome {pending : List (Path × SourceState)}
    (h : ∀ slot ∈ pending, ∃ edge ∈ edges, path ++ slot.1 = edge.target) :
    (pendingOutcome pending).Names edges path := by
  intro reason hreason
  unfold pendingOutcome at hreason
  dsimp only at hreason
  split at hreason
  · cases hreason
  · cases hreason
    intro entry hentry
    rcases mem_slotReasons hentry with hnone | ⟨slot, hslot, hhead⟩
    · exact absurd hnone List.not_mem_nil
    · obtain ⟨edge, hedge, htarget⟩ := h slot hslot
      obtain ⟨rest, hrest⟩ := List.head?_eq_some_iff.mp hhead
      exact ⟨edge, hedge, rest, by rw [← htarget, hrest, List.append_assoc, List.singleton_append]⟩

/-- The slot of an edge that is not known is the one that the edge ends at. -/
theorem joinSlot_pending {config : CellConfig} {localPath slotPath : Path} {edge : Edge}
    {state : SourceState}
    (h : (joinSlot env v config localPath edge).value = .pending slotPath state) :
    slotPath = localPath := by
  unfold joinSlot at h
  rw [Evaluated.value_bind] at h
  split at h
  · dsimp only at h
    split at h
    · rw [Evaluated.value_bind] at h
      split at h
      · cases h
      · cases h
      · cases h
        rfl
    · cases h
  · cases h
    rfl

theorem joinSlots_pending {config : CellConfig} {slotPath : Path} {state : SourceState} :
    ∀ {incoming : List (Path × Edge)},
      Slot.pending slotPath state ∈ (joinSlots env v config incoming).value →
        ∃ entry ∈ incoming, entry.1 = slotPath := by
  intro incoming
  induction incoming with
  | nil => exact fun h => absurd h List.not_mem_nil
  | cons entry incoming ih =>
    intro h
    obtain ⟨localPath, edge⟩ := entry
    unfold joinSlots at h
    rw [Evaluated.value_bind] at h
    split at h
    · rcases List.mem_cons.mp h with h | h
      · cases h
      · exact absurd h List.not_mem_nil
    · rw [Evaluated.value_bind] at h
      rcases List.mem_cons.mp h with h | h
      · exact ⟨_, List.mem_cons_self .., (joinSlot_pending h.symm).symm⟩
      · obtain ⟨other, hother, hpath⟩ := ih h
        exact ⟨other, List.mem_cons_of_mem _ hother, hpath⟩

theorem names_joinOutcome {fields : CellFields} {incoming : List (Path × Edge)}
    (h : ∀ entry ∈ incoming, ∃ edge ∈ edges, path ++ entry.1 = edge.target) :
    (joinOutcome env v fields incoming).value.Names edges path := by
  unfold joinOutcome
  rw [Evaluated.value_bind]
  split
  · exact Outcome.names_of_none rfl
  · dsimp only
    split
    · refine names_pendingOutcome fun slot hslot => ?_
      obtain ⟨pending, hpending, hsome⟩ := List.mem_filterMap.mp hslot
      split at hsome
      · cases hsome
        obtain ⟨entry, hentry, rfl⟩ := joinSlots_pending hpending
        exact h entry hentry
      · cases hsome
    · rw [Evaluated.value_bind]
      split
      · rename_i outcome ho
        refine Outcome.names_of_none ?_
        unfold joinRoot at ho
        split at ho
        · cases ho
        · split at ho
          · cases ho
          · rw [Evaluated.value_bind] at ho
            split at ho <;> cases ho <;> rfl
      · unfold celljoinOutcome
        dsimp only
        split <;> exact Outcome.names_of_none rfl

theorem names_rootEdgeOutcome {config : CellConfig} {edge : Edge} {sourcePath : NodePath}
    {sourceLocal : Path} :
    (rootEdgeOutcome env v config edge sourcePath sourceLocal).value.Names edges path := by
  unfold rootEdgeOutcome
  rw [Evaluated.value_bind]
  split
  · dsimp only
    split
    · split <;> exact Outcome.names_of_none rfl
    · exact Outcome.names_of_none rfl
  · split
    · exact Outcome.names_of_none rfl
    · exact names_upstreamOutcome .failed
  · exact Outcome.names_of_none rfl
  · exact names_upstreamOutcome _

/-- The block reason of a cell names slots that edges end at. -/
theorem names_cellOutcome (senseErrors : List Error) (fields : CellFields) :
    (cellOutcome env v senseErrors path fields).value.Names v.graph.edges path := by
  unfold cellOutcome
  split
  · exact Outcome.names_of_none rfl
  · dsimp only
    split
    · split
      · exact Outcome.names_of_none rfl
      · split
        · split
          · refine Outcome.names_of_none ?_
            unfold directOutcome
            split
            · rfl
            · dsimp only
              split
              · rw [Evaluated.value_bind]
                split <;> (try split) <;> rfl
              · rfl
          · exact names_rootEdgeOutcome
        · exact names_rootEdgeOutcome
    · split
      · refine Outcome.names_of_none ?_
        unfold ownOutcome
        split
        · split <;> rfl
        · split
          · rfl
          · split <;> rfl
      · refine names_joinOutcome fun entry hentry => ?_
        obtain ⟨edge, hedge, -, hresolve⟩ := ContextGraph.mem_incomingFor hentry
        exact ⟨edge, hedge, (LongestPrefix.reads_of_split hresolve).flat⟩

end Outcomes

/-! ## Derivation -/

/-- The block reasons that a Context shows have been shown before, or name slots of edges. -/
def ShowsReasons (edges : List Edge) (ctx ctx' : Ctx) : Prop :=
  ∀ q, ∀ reason ∈ ctx'.reasonAt q, reason ∈ ctx.reasonAt q ∨ reason.Names edges q

section Derivation

variable {edges : List Edge} {env : Substrate}

theorem ShowsReasons.trans {a b c : Ctx} (h : ShowsReasons edges a b) (h' : ShowsReasons edges b c) :
    ShowsReasons edges a c := fun q reason hreason =>
  (h' q reason hreason).elim (h q reason) Or.inr

theorem showsReasons_of_nodes {ctx ctx' : Ctx} (h : ∀ q, ctx'.node? q = ctx.node? q) :
    ShowsReasons edges ctx ctx' := fun q reason hreason => by
  unfold Ctx.reasonAt at hreason ⊢
  rw [h] at hreason
  exact Or.inl hreason

/-- A change of one node that shows only reasons that name slots. -/
theorem showsReasons_of_node {ctx ctx' : Ctx} {path : NodePath} {f : Node → Node}
    (h : ∀ q, ctx'.node? q = if q = path then (ctx.node? path).map f else ctx.node? q)
    (hf : ∀ node, ∀ reason ∈ (f node).blockReason, reason ∈ node.blockReason ∨ reason.Names edges path) :
    ShowsReasons edges ctx ctx' := fun q reason hreason => by
  unfold Ctx.reasonAt at hreason ⊢
  rw [h] at hreason
  by_cases hq : q = path
  · rw [if_pos hq] at hreason
    obtain ⟨node, hnode, hshown⟩ := Option.bind_eq_some_iff.mp hreason
    obtain ⟨before, hbefore, rfl⟩ := Option.map_eq_some_iff.mp hnode
    rw [hq, hbefore]
    exact hf before reason hshown
  · rw [if_neg hq] at hreason
    exact Or.inl hreason

theorem names_runOutcome {path : NodePath} (record : RunRecord) : record.outcome.Names edges path := by
  unfold RunRecord.outcome
  split <;> exact Outcome.names_of_none rfl

theorem names_verdictOutcome {path : NodePath} (verdict : InputVerdict) :
    verdict.outcome.Names edges path := by
  cases verdict with
  | failed e => exact Outcome.names_of_none rfl
  | pending reasons =>
    intro reason hreason
    dsimp only [InputVerdict.outcome] at hreason
    split at hreason
    · cases hreason
      trivial
    · cases hreason
  | ready code pins => exact Outcome.names_of_none rfl

theorem showsReasons_deriveNode (ctx : Ctx) (path : NodePath) :
    ShowsReasons ctx.graph.edges ctx (ctx.deriveNode env path) := by
  have hnoted : ShowsReasons ctx.graph.edges ctx (ctx.noteDerivation path) :=
    showsReasons_of_nodes fun _ => rfl
  refine hnoted.trans ?_
  have hedges : (ctx.noteDerivation path).view.graph.edges = ctx.graph.edges := rfl
  unfold Ctx.deriveNode
  dsimp only
  generalize ctx.noteDerivation path = noted at hedges
  split
  · exact showsReasons_of_nodes fun _ => rfl
  · rename_i node _
    split
    · rename_i fields _
      refine showsReasons_of_node (node?_deriveCell env path fields noted) fun node reason hreason => ?_
      exact Or.inr (hedges ▸ names_cellOutcome _ _ reason hreason)
    · rename_i fields _
      obtain ⟨outcome, hnodes, houtcome⟩ := (transformerDerived env path node fields noted).outcome
      refine showsReasons_of_node hnodes fun node reason hreason => Or.inr ?_
      have hreason : reason ∈ outcome.blockReason := hreason
      split at houtcome
      · obtain ⟨record, -, -, rfl⟩ := houtcome
        exact names_runOutcome record reason hreason
      · subst houtcome
        exact names_verdictOutcome _ reason hreason

theorem showsReasons_deriveNodes (paths : List NodePath) : ∀ ctx : Ctx, ShowsReasons ctx.graph.edges ctx
    (paths.foldl (fun ctx path => ctx.deriveNode env path) ctx) := by
  induction paths with
  | nil => exact fun ctx => showsReasons_of_nodes fun _ => rfl
  | cons path paths ih =>
    intro ctx
    have hedges : (ctx.deriveNode env path).graph.edges = ctx.graph.edges :=
      congrArg Durable.edges (Ctx.durable_deriveNode env ctx path)
    exact (showsReasons_deriveNode ctx path).trans (hedges ▸ ih (ctx.deriveNode env path))

theorem showsReasons_deriveGraph (sorted : List NodePath) (ctx : Ctx) :
    ShowsReasons ctx.graph.edges ctx (ctx.deriveGraph env sorted) :=
  (showsReasons_deriveNodes _ ctx).trans
    (showsReasons_of_nodes fun q => node?_deriveGraph env sorted ctx q)

theorem showsReasons_writePins (path : NodePath) (reading : TransformerReading)
    (blocked : List (Reason × String)) (ctx : Ctx) :
    ShowsReasons edges ctx (ctx.writePins path reading blocked) :=
  showsReasons_of_node (node?_setDerived path _ ctx) fun node _ hreason =>
    Or.inl (blockReason_mapTransformer node ▸ hreason)

/-- A derivation that raises has derived some of the nodes, and has read the pins of another one. -/
theorem showsReasons_graphRaises {ctx raised : Ctx} {sorted : List NodePath}
    (h : ctx.graphRaises env sorted = some raised) : ShowsReasons ctx.graph.edges ctx raised := by
  obtain ⟨before, path, after, -, h⟩ := Ctx.nodesRaise_eq_some h
  have hbefore : ShowsReasons ctx.graph.edges ctx
      (before.foldl (fun ctx path => ctx.deriveNode env path) ctx) := showsReasons_deriveNodes before ctx
  generalize before.foldl (fun ctx path => ctx.deriveNode env path) ctx = mid at h hbefore
  refine hbefore.trans ?_
  obtain ⟨node, fields, code, pins, -, -, -, h⟩ := Ctx.nodeRaises_cases h
  obtain ⟨released, hreleased, -, h⟩ := Ctx.meetDemandRaises_cases h
  have hreleased : ShowsReasons ctx.graph.edges mid released := by
    have hnoted : ShowsReasons ctx.graph.edges mid (((mid.noteDerivation path).report env
        (transformerReading env mid.view path fields)).noteEdgeCode path
          (transformerReading env mid.view path fields).value.edgeCode) := showsReasons_of_nodes fun q =>
      (node?_of_graph (graph_noteEdgeCode path _ _) q).trans (node?_report env _ (mid.noteDerivation path) q)
    rw [hreleased]
    exact (hnoted.trans (showsReasons_writePins path _ _ _)).trans
      (showsReasons_of_nodes (node?_of_graph (graph_releaseUpstreamHolds path _ _)))
  refine hreleased.trans (showsReasons_of_nodes fun q => ?_)
  rcases h with rfl | rfl
  · rfl
  · exact node?_of_graph (graph_suspend path released) q

end Derivation

end SeamlessWorkflow
