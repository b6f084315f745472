import SeamlessWorkflow.Proofs.RevisedOperations
import SeamlessWorkflow.Proofs.WellWired

/-!
# New configurations, new nodes and revisions

The operations that write a whole configuration, those that delete and create nodes, and the copy of a
namespace.
-/

namespace SeamlessWorkflow

open Program

namespace Watch.Lawful

variable {env : Substrate} {w : Watch} (h : w.Lawful env) (start : Ctx)

/-! ## Configurations -/

section Configurations

include h

omit h in
/-- The node whose configuration has been written is there. -/
theorem nodeAt_loosen (path : NodePath) : Triple (Kept (w.loosen path) start) (nodeAt path)
    (fun _ => Kept (w.loosen path) start) (Kept w start) := by
  refine Triple.get_bind fun ctx => ?_
  cases hnode : ctx.node? path with
  | some node => exact Triple.pure fun _ hc => hc.2
  | none =>
    refine Triple.throw fun ctx' hc => ?_
    obtain ⟨rfl, hc⟩ := hc
    refine hc.tighten fun hstays hs => ?_
    have hthere := hc.there path hstays hs
    unfold Ctx.config? at hthere
    rw [hnode] at hthere
    cases hthere

omit h in
theorem setTransformerConfig_loosen (path : NodePath) (f : TransformerConfig → TransformerConfig)
    {E : Ctx → Prop} : Triple (Kept w start) (setTransformerConfig path f)
      (fun _ => Kept (w.loosen path) start) E :=
  Triple.modify fun ctx hc =>
    (hc.loosen path).edit (edits_updateNode path ctx fun hfenced => absurd rfl hfenced.2)

omit h in
theorem removeEdgesTargeting_loosen (path : NodePath) (localPath : Path) {E : Ctx → Prop} :
    Triple (Kept (w.loosen path) start) (SeamlessWorkflow.removeEdgesTargeting path localPath)
      (fun _ => Kept (w.loosen path) start) E :=
  Triple.modify fun _ hc => hc.edit (.modifyGraph fun _ _ => rfl)

theorem dropPins_loosen (path : NodePath) (pins : List String) :
    Triple (Kept (w.loosen path) start) (dropPins path pins) (fun _ => Kept (w.loosen path) start)
      (Kept w start) := by
  refine Triple.forM fun pin _ => Triple.bind (R := fun _ => Kept (w.loosen path) start) ?_ fun _ =>
    removeEdgesTargeting_loosen start path _
  refine Triple.bind (nodeAt_loosen start path) fun node => ?_
  refine Triple.bind (R := fun _ => Kept (w.loosen path) start) (Triple.modify fun ctx hc => ?_) fun _ =>
    Triple.modify fun ctx hc => hc.aside (h.loosen path) (aside_decrefAll _ ctx)
  exact hc.edit (edits_updateNode path ctx fun _ => config_mapTransformer fun _ => rfl)

theorem bump_loosen (path : NodePath) {E : Ctx → Prop} :
    Triple (Kept (w.loosen path) start) (SeamlessWorkflow.bumpRevision path)
      (fun _ => Past w path start) E := Triple.modify fun _ hc => hc.bump h

/-- New code comes with a new revision, unless an edge delivers it. -/
theorem setTransformerCode (path : NodePath) (code : CodeValue)
    (hfree : ∀ ep, code = .endpoint ep → ¬ w.fenced path) :
    Keeps (Kept w start) (setTransformerCode env path code) := by
  cases code with
  | endpoint ep =>
    refine Keeps.bind (h.addEndpointEdge start _ _ _) fun _ => ?_
    refine Keeps.bind (h.releaseCodeChecksum start path) fun _ => ?_
    refine Keeps.bind (keeps_transformerAt path) fun _ => ?_
    refine Keeps.bind (mapTransformer start path fun hfenced => ?_) fun _ => h.deriveAll start
    exact absurd hfenced (hfree ep rfl)
  | config cfg =>
    refine Keeps.bind (keeps_transformerAt path) fun fields => ?_
    refine Triple.bind (setTransformerConfig_loosen start path _) fun _ => ?_
    refine Triple.bind (h.dropPins_loosen start path _) fun _ => ?_
    refine Triple.bind (removeEdgesTargeting_loosen start path _) fun _ => ?_
    refine Triple.bind (h.bump_loosen start path) fun _ => ?_
    refine Triple.conseq (P := Kept w start) (Q := fun _ => Kept w start) (E := Kept w start) ?_
      (fun _ hc => hc.tighten) (fun _ _ hc => hc) fun _ hc => hc
    exact Keeps.bind (h.replaceCodeChecksum start path _) fun _ => h.deriveAll start

omit h in
theorem publishCell (path : NodePath) (old new : CellConfig) : Triple (Kept w start)
    (publishCell path old new) (fun _ => Kept (w.loosen path) start) (Kept w start) := by
  refine Triple.get_bind fun ctx => Triple.conseq (P := Kept w start) ?_ (fun _ hc => hc.2)
    (fun _ _ hc => hc) fun _ hc => hc
  refine Triple.bind (keeps_refuseIf _ _ _) fun _ => Triple.bind (keeps_refuseIf _ _ _) fun _ => ?_
  exact Triple.modify fun ctx hc =>
    (hc.loosen path).edit (edits_updateNode path ctx fun hfenced => absurd rfl hfenced.2)

theorem dropPins (path : NodePath) (pins : List String) : Keeps (Kept w start) (dropPins path pins) :=
  Keeps.forM fun pin _ => Keeps.bind (h.dropPinProducer start path pin) fun _ =>
    removeEdgesTargeting start path [.key pin]

theorem publishTransformer (path : NodePath) (old new : TransformerConfig) : Triple (Kept w start)
    (publishTransformer path old new) (fun _ => Kept (w.loosen path) start) (Kept w start) := by
  refine Triple.get_bind fun ctx => Triple.conseq (P := Kept w start) ?_ (fun _ hc => hc.2)
    (fun _ _ hc => hc) fun _ hc => hc
  refine Triple.bind (keeps_refuseIf _ _ _) fun _ => ?_
  refine Triple.bind (keeps_onlyIf ?_) fun _ => setTransformerConfig_loosen start path _
  exact Keeps.bind (h.dropPins start path _) fun _ => mapTransformer start path fun _ _ => rfl

theorem publishBody (path : NodePath) (body : NodeBody) (config : NodeConfig) : Triple (Kept w start)
    (publishBody path body config) (fun _ => Kept (w.loosen path) start) (Kept w start) := by
  unfold SeamlessWorkflow.publishBody
  split
  · exact publishCell start path _ _
  · exact h.publishTransformer start path _ _
  · refine Triple.bind (R := fun _ => Kept w start) (Triple.modify fun ctx hc => ?_) fun _ =>
      Triple.throw fun _ hc => hc
    exact hc.aside h (aside_poison ctx)
  · exact Triple.throw fun _ hc => hc

omit h in
/-- A configuration is written before its revision. -/
theorem keeps_revisions_publishBody (revisions : AList fun _ : NodePath => Nat) (path : NodePath)
    (body : NodeBody) (config : NodeConfig) :
    Keeps (fun ctx : Ctx => ctx.revisions = revisions) (SeamlessWorkflow.publishBody path body config) := by
  have hmodify : ∀ {f : Node → Node}, Keeps (fun ctx : Ctx => ctx.revisions = revisions)
      (SeamlessWorkflow.modifyNode path f) := Keeps.modify fun _ hc => hc
  have hdrop : ∀ pins, Keeps (fun ctx : Ctx => ctx.revisions = revisions)
      (SeamlessWorkflow.dropPins path pins) := by
    refine fun pins => Keeps.forM fun pin _ => Keeps.bind (Keeps.bind (keeps_nodeAt path) fun node => ?_)
      fun _ => Keeps.modify fun _ hc => hc
    refine Keeps.bind hmodify fun _ => Keeps.modify fun ctx hc => ?_
    exact (congrArg Durable.revisions (Ctx.durable_decrefAll _ ctx)).trans hc
  unfold SeamlessWorkflow.publishBody
  split
  · refine Keeps.bind Keeps.get fun ctx => Keeps.bind (keeps_refuseIf _ _ _) fun _ => ?_
    exact Keeps.bind (keeps_refuseIf _ _ _) fun _ => hmodify
  · refine Keeps.bind Keeps.get fun ctx => Keeps.bind (keeps_refuseIf _ _ _) fun _ => ?_
    exact Keeps.bind (keeps_onlyIf (Keeps.bind (hdrop _) fun _ => hmodify)) fun _ => hmodify
  · exact Keeps.bind (Keeps.modify fun _ hc => hc) fun _ => keeps_raise _ _
  · exact keeps_raise _ _

theorem publishConfig (path : NodePath) (revision : Nat) (config : NodeConfig) :
    Keeps (Kept w start) (publishConfig env path revision config) := by
  refine Triple.get_bind fun ctx => Triple.ite (fun _ => Triple.pure fun _ hc => hc.2) fun hsame => ?_
  rw [not_not] at hsame
  refine Triple.conseq (P := fun ctx' => Kept w start ctx' ∧ ctx'.revisions = ctx.revisions) ?_
    (fun ctx' hc => ⟨hc.2, congrArg Ctx.revisions hc.1⟩) (fun _ _ hc => hc) fun _ hc => hc
  refine Triple.bind (R := fun _ ctx' => Kept w start ctx' ∧ ctx'.revisions = ctx.revisions)
    ((Triple.and (keeps_nodeAt path) (keeps_nodeAt path)).conseq (fun _ hc => hc) (fun _ _ hc => hc)
      fun _ hc => hc.1) fun node => ?_
  refine Triple.bind (R := fun _ ctx' => Kept (w.loosen path) start ctx' ∧
    ctx'.revisions = ctx.revisions) (((h.publishBody start path node.body config).and
      (keeps_revisions_publishBody ctx.revisions path node.body config)).conseq (fun _ hc => hc)
        (fun _ _ hc => hc) fun _ hc => hc.1) fun _ => ?_
  refine Triple.bind (R := fun _ => Kept w start) (Triple.modify fun ctx' hc => ?_) fun _ =>
    Keeps.bind (h.deriveAll start) fun _ => Keeps.pure
  have hbump : { ctx' with revisions := ctx'.revisions.insert path (revision + 1) } =
      ctx'.bumpRevision path := by
    unfold Ctx.bumpRevision Ctx.revision
    rw [hc.2, ← hsame]
    rfl
  rw [hbump]
  exact (hc.1.bump h).tighten

end Configurations

end Watch.Lawful

/-! ## Deletion -/

namespace Kept

variable {env : Substrate} {w : Watch} {start ctx : Ctx}

theorem detach (hw : w.Lawful env) (h : Kept w start ctx) (path : NodePath) (driver : String) :
    Kept w start (ctx.detach path driver) := by
  unfold Ctx.detach
  split
  · exact h
  · have hsessions : Kept w start { ctx with mountSessions := ctx.mountSessions.erase (path, driver) } :=
      h.aside hw (.of_eq rfl rfl rfl rfl (fun _ => le_rfl) rfl)
    refine hsessions.edit (edits_updateNode path _ fun _ node => ?_)
    split
    · rfl
    · split <;> rfl

theorem detachAll (hw : w.Lawful env) (h : Kept w start ctx) (path : NodePath) :
    Kept w start (ctx.detachAll path) := by
  unfold Ctx.detachAll
  generalize ctx.mountSessions.keys.filter (fun key => decide (key.1 = path)) = keys
  induction keys generalizing ctx with
  | nil => exact h
  | cons key keys ih => exact ih (h.detach hw path key.2)

/-- A change of one node that is not watched. -/
theorem elsewhere (h : Kept w start ctx) {path : NodePath} {f : ContextGraph → ContextGraph}
    (hgone : w.stays path → (start.config? path).isSome = false)
    (hother : ∀ p, p ≠ path → (f ctx.graph).nodes.lookup p = ctx.graph.nodes.lookup p) :
    Kept w start (ctx.modifyGraph f) := by
  have hconfig : ∀ p, w.stays p → (start.config? p).isSome = true →
      (ctx.modifyGraph f).config? p = ctx.config? p := by
    intro p hp hs
    refine congrArg (Option.map Node.config) (hother p ?_)
    rintro rfl
    rw [hgone hp] at hs
    cases hs
  refine ⟨fun hs => absurd hs Bool.false_ne_true, fun p hp hs => ?_, h.revision, fun p hp hs he => ?_⟩
  · rw [hconfig p hp hs]
    exact h.there p hp hs
  · rw [hconfig p (w.fencedStays p hp) hs]
    exact h.config p hp hs he

theorem eraseNode (h : Kept w start ctx) {path : NodePath}
    (hgone : w.stays path → (start.config? path).isSome = false) :
    Kept w start (ctx.modifyGraph fun g => g.eraseNode path) :=
  h.elsewhere hgone fun _ hne => AList.lookup_erase_ne hne

/-- A node that is not watched is put, with the next identity. -/
theorem putNode (hw : w.Lawful env) (h : Kept w start ctx) {path : NodePath} (node : Node)
    (hgone : w.stays path → (start.config? path).isSome = false) :
    Kept w start { ctx.modifyGraph (fun g => g.putNode path node) with
      nextIdent := ctx.nextIdent + 1 } := by
  have hput : Kept w start (ctx.modifyGraph fun g => g.putNode path node) :=
    h.elsewhere hgone fun _ hne => AList.lookup_insert_ne hne
  exact hput.aside hw (.of_eq rfl rfl rfl rfl (fun _ => le_rfl) rfl)

/-- A node that has not been there is not watched. -/
theorem absent (h : Kept w start ctx) {path : NodePath} (hnew : path ∉ ctx.graph.nodes)
    (hstays : w.stays path) : (start.config? path).isSome = false := by
  refine Bool.eq_false_iff.mpr fun hs => hnew ?_
  have hthere := h.there path hstays hs
  unfold Ctx.config? at hthere
  rw [Option.isSome_map] at hthere
  exact AList.lookup_isSome.mp hthere

/-- Derivation writes no configuration, so the release of a result leaves it alone. -/
theorem releaseCurrent (h : Kept w start ctx) (env : Substrate) (path : NodePath) :
    Kept w start (ctx.replaceCurrentChecksum env path none) := by
  have hdurable := Ctx.durable_replaceCurrentChecksum env path none ctx
  cases hnode : ctx.node? path with
  | none =>
    unfold Ctx.replaceCurrentChecksum
    rw [hnode]
    exact h
  | some node =>
    refine h.edit (.of_config ?_ (fun p _ => Ctx.config?_of_durable hdurable p) fun p _ =>
      Ctx.revision_of_durable hdurable p)
    unfold Ctx.replaceCurrentChecksum
    rw [hnode]
    rfl

theorem dropRuns (hw : w.Lawful env) (h : Kept w start ctx) (path : NodePath) :
    Kept w start (ctx.dropRuns path) := by
  have hdropped : Aside ctx { ctx with runtime := ctx.runtime.dropNode path } :=
    .of_eq rfl rfl rfl rfl (fun _ => le_rfl) rfl
  exact (h.aside hw (hdropped.trans (aside_cancelRuns _ _))).edit
    (.of_config rfl (fun _ _ => rfl) fun _ _ => rfl)

theorem deleteNode (hw : w.Lawful env) (h : Kept w start ctx) {path : NodePath}
    (hgone : w.stays path → (start.config? path).isSome = false) :
    Kept w start (ctx.deleteNode path) := by
  have hdetached := h.detachAll hw path
  unfold Ctx.deleteNode
  dsimp only
  cases (ctx.detachAll path).node? path with
  | none => exact hdetached
  | some node =>
    refine dropRuns hw ?_ path
    exact (hdetached.eraseNode hgone).aside hw ((aside_decrefAll _ _).trans (aside_releaseCode path _))

theorem deleteNodes (hw : w.Lawful env) (h : Kept w start ctx) (paths : List NodePath)
    (hgone : ∀ path ∈ paths, w.stays path → (start.config? path).isSome = false) :
    Kept w start (paths.foldl Ctx.deleteNode ctx) := by
  induction paths generalizing ctx with
  | nil => exact h
  | cons path paths ih =>
    refine ih (h.deleteNode hw (hgone path List.mem_cons_self)) fun q hq => ?_
    exact hgone q (List.mem_cons_of_mem _ hq)

end Kept

namespace Watch.Lawful

variable {env : Substrate} {w : Watch} (h : w.Lawful env) (start : Ctx)

include h

/-- Nodes that are watched are not below a path that is deleted. -/
theorem deleteSubtree (path : NodePath) (hgone : ∀ p, below path p = true → w.stays p →
    (start.config? p).isSome = false) : Keeps (Kept w start) (deleteSubtree env path) := by
  refine Triple.inspect (inspects_sortedDescendants path) (fun _ hc => hc) fun descendants => ?_
  refine Triple.bind (R := fun _ => Kept w start) (Triple.modify fun ctx hc => ?_) fun _ => ?_
  · exact hc.1.deleteNodes h descendants fun q hq => hgone q ((mem_descendants hc.2 q).mp hq).2
  · refine Keeps.bind (modifiesEdit start fun ctx => .modifyGraph fun _ _ => rfl) fun _ => ?_
    refine Keeps.bind (h.modifiesAside start fun ctx => ?_) fun _ => h.deriveAll start
    exact (aside_syncModuleRefholds ctx).trans (aside_syncSupersededRefholds _)

/-- A pin is taken back without a new revision. -/
theorem delete (path : NodePath) (hgone : ∀ p, below path p = true → w.stays p →
      (start.config? p).isSome = false)
    (hpin : ∀ node pin, path = node ++ [.key pin] → ¬ w.fenced node) :
    Keeps (Kept w start) (delete env path) := by
  refine Keeps.bind (keeps_refuseIf _ _ _) fun _ => Keeps.bind Keeps.get fun ctx => ?_
  refine Keeps.ite (h.deleteSubtree start path hgone) ?_
  unfold deleteInside
  split
  · exact Keeps.pure
  · rename_i node localPath hresolve
    refine Keeps.ite (h.cellDeletePath start _ _) ?_
    split
    · rename_i pin
      refine h.deleteTransformerPin start node (hpin node pin ?_) pin
      exact (ContextGraph.resolveExisting_eq_some.mp hresolve).flat.symm
    · exact Keeps.pure

end Watch.Lawful

end SeamlessWorkflow
